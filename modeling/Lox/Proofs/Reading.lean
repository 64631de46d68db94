import Lox.Grammar.Statement
import Lox.Proofs.Exec

/-!
# What the parser reads

`Reads ph ts rest` says that the phrase `ph`, a part of the grammar with the tree it stands for, can
be read from the tokens `ts` and leaves `rest`. It has one rule for each way a parser can go on
without a fault, with the tokens it looks at and no bound on its depth.

A parser that reports nothing has read what it returns (`readsExpressions`, `readsStatements`,
`reads_of_parse`).
-/

namespace Lox.Grammar

/-! ## Phrases -/

/-- The kind of the next token. -/
def headKind? (ts : List Token) : Option TokenKind := ts.head?.map (·.kind)

@[simp] theorem headKind?_nil : headKind? [] = none := rfl

@[simp] theorem headKind?_cons (t : Token) (ts : List Token) : headKind? (t :: ts) = some t.kind :=
  rfl

/-- A part of the grammar, with the tree that is read. -/
inductive Phrase where
  | expression (e : Expr)
  | operand (level : Level) (e : Expr)
  | tighter (level : Level) (e : Expr)
  | joined (level : Level) (left e : Expr)
  | unary (e : Expr)
  | suffixes (head e : Expr)
  | arguments (es : List Expr)
  | moreArguments (count : Nat) (es : List Expr)
  | primary (e : Expr)
  | varDecl (stmt : Stmt)
  | expressionStmt (stmt : Stmt)
  | printStmt (stmt : Stmt)
  | optionalExpression (stop : TokenKind) (e : Option Expr)
  | returnStmt (keyword : Token) (stmt : Stmt)
  | forInit (stmt : Option Stmt)
  | testInParens (start stop : Expected) (e : Expr)
  | moreParameters (count : Nat) (params : List Token)
  | parameters (params : List Token)
  | declaration (stmt : Stmt)
  | classDecl (stmt : Stmt)
  | methods (ds : List (FunDecl Stmt))
  | function (routine : Routine) (d : FunDecl Stmt)
  | block (body : List Stmt)
  | statement (stmt : Stmt)
  | forStmt (stmt : Stmt)
  | ifStmt (stmt : Stmt)
  | declarations (stmts : List Stmt)

/-- The token that begins a primary form; constants begin with several. -/
def Start.kind? : Start → Option TokenKind
  | .constant => none
  | .name => some .identifier
  | .thisWord => some .kwThis
  | .superWord => some .kwSuper
  | .paren => some .leftParen

theorem kind_of_start? {k kind : TokenKind} {start : Start} (h : start? k = some start)
    (hs : start.kind? = some kind) : k = kind := by
  cases start <;> cases hs <;> cases k <;> first | rfl | cases h

/-- The token that a form begins with. -/
def Form.kind : Form → TokenKind
  | .classForm => .kwClass
  | .funForm => .kwFun
  | .varForm => .kwVar
  | .forForm => .kwFor
  | .ifForm => .kwIf
  | .printForm => .kwPrint
  | .returnForm => .kwReturn
  | .whileForm => .kwWhile
  | .blockForm => .leftBrace

theorem declarationForm?_eq_some {k : TokenKind} {form : Form} (h : declarationForm? k = some form) :
    k = form.kind ∧ declarationForm? form.kind = some form := by
  have hk : k = form.kind := by
    cases k <;> first | (cases h; rfl) | cases h
  exact ⟨hk, hk ▸ h⟩

theorem statementForm?_eq_some {k : TokenKind} {form : Form} (h : statementForm? k = some form) :
    k = form.kind ∧ statementForm? form.kind = some form := by
  have hk : k = form.kind := by
    cases k <;> first | (cases h; rfl) | cases h
  exact ⟨hk, hk ▸ h⟩

/-- How phrases are read (module doc). -/
inductive Reads : Phrase → List Token → List Token → Prop
  -- expressions
  | plain {e ts rest} (h : Reads (.operand .or e) ts rest) (hk : headKind? rest ≠ some .equal) :
      Reads (.expression e) ts rest
  | assignName {ref eq value ts us rest} (h : Reads (.operand .or (.name ref)) ts (eq :: us))
      (hk : eq.kind = .equal) (hv : Reads (.expression value) us rest) :
      Reads (.expression (.assign ref value)) ts rest
  | assignProperty {object property eq value ts us rest}
      (h : Reads (.operand .or (.get object property)) ts (eq :: us)) (hk : eq.kind = .equal)
      (hv : Reads (.expression value) us rest) :
      Reads (.expression (.set object property value)) ts rest
  | operand {level left e ts us rest} (hl : Reads (.tighter level left) ts us)
      (hj : Reads (.joined level left e) us rest) : Reads (.operand level e) ts rest
  | descend {level level' e ts rest} (hl : level.tighter? = some level')
      (h : Reads (.operand level' e) ts rest) : Reads (.tighter level e) ts rest
  | tightest {level e ts rest} (hl : level.tighter? = none) (h : Reads (.unary e) ts rest) :
      Reads (.tighter level e) ts rest
  | joinedStop {level e ts} (hk : (headKind? ts).bind level.joint? = none) :
      Reads (.joined level e e) ts ts
  | joinedMore {level joint token left right e ts us rest} (hk : level.joint? token.kind = some joint)
      (hr : Reads (.tighter level right) ts us)
      (hj : Reads (.joined level (joint.join token left right) e) us rest) :
      Reads (.joined level left e) (token :: ts) rest
  | prefixed {op token e ts rest} (hk : unaryOp? token.kind = some op)
      (h : Reads (.unary e) ts rest) : Reads (.unary (.unary op token e)) (token :: ts) rest
  | unprefixed {head e ts us rest} (hk : (headKind? ts).bind unaryOp? = none)
      (hp : Reads (.primary head) ts us) (hs : Reads (.suffixes head e) us rest) :
      Reads (.unary e) ts rest
  | call {head args paren t e ts us rest} (hk : t.kind = .leftParen)
      (ha : Reads (.arguments args) ts (paren :: us)) (hp : paren.kind = .rightParen)
      (hs : Reads (.suffixes (.call head paren args) e) us rest) :
      Reads (.suffixes head e) (t :: ts) rest
  | property {head property t e ts rest} (hk : t.kind = .dot) (hp : property.kind = .identifier)
      (hs : Reads (.suffixes (.get head property) e) ts rest) :
      Reads (.suffixes head e) (t :: property :: ts) rest
  | suffixStop {head ts} (hp : headKind? ts ≠ some .leftParen) (hd : headKind? ts ≠ some .dot) :
      Reads (.suffixes head head) ts ts
  | noArguments {ts} (hk : headKind? ts = some .rightParen) : Reads (.arguments []) ts ts
  | someArguments {es ts rest} (hk : headKind? ts ≠ some .rightParen)
      (h : Reads (.moreArguments 0 es) ts rest) : Reads (.arguments es) ts rest
  | lastArgument {count e ts rest} (hc : count < maxArguments) (h : Reads (.expression e) ts rest)
      (hk : headKind? rest ≠ some .comma) : Reads (.moreArguments count [e]) ts rest
  | nextArgument {count e es t ts us rest} (hc : count < maxArguments)
      (h : Reads (.expression e) ts (t :: us)) (hk : t.kind = .comma)
      (hm : Reads (.moreArguments (count + 1) es) us rest) :
      Reads (.moreArguments count (e :: es)) ts rest
  | constant {t ts} (hk : start? t.kind = some .constant) :
      Reads (.primary (.literal (t.constant?.getD .nil))) (t :: ts) ts
  | name {t ts} (hk : t.kind = .identifier) : Reads (.primary (.name ⟨t, none⟩)) (t :: ts) ts
  | thisWord {t ts} (hk : t.kind = .kwThis) : Reads (.primary (.thisRef ⟨t, none⟩)) (t :: ts) ts
  | superWord {t dot method ts} (hk : t.kind = .kwSuper) (hd : dot.kind = .dot)
      (hm : method.kind = .identifier) :
      Reads (.primary (.superRef ⟨t, none⟩ method)) (t :: dot :: method :: ts) ts
  | group {t e close ts rest} (hk : t.kind = .leftParen)
      (h : Reads (.expression e) ts (close :: rest)) (hc : close.kind = .rightParen) :
      Reads (.primary (.group e)) (t :: ts) rest
  -- statements without statements inside
  | varPlain {name semi ts} (hn : name.kind = .identifier) (hs : semi.kind = .semicolon) :
      Reads (.varDecl (.var name none)) (name :: semi :: ts) ts
  | varInit {name eq e semi ts rest} (hn : name.kind = .identifier) (he : eq.kind = .equal)
      (h : Reads (.expression e) ts (semi :: rest)) (hs : semi.kind = .semicolon) :
      Reads (.varDecl (.var name (some e))) (name :: eq :: ts) rest
  | expressionStmt {e semi ts rest} (h : Reads (.expression e) ts (semi :: rest))
      (hs : semi.kind = .semicolon) : Reads (.expressionStmt (.expression e)) ts rest
  | printStmt {e semi ts rest} (h : Reads (.expression e) ts (semi :: rest))
      (hs : semi.kind = .semicolon) : Reads (.printStmt (.print e)) ts rest
  | absent {stop ts} (hk : headKind? ts = some stop) : Reads (.optionalExpression stop none) ts ts
  | present {stop e ts rest} (hk : headKind? ts ≠ some stop) (h : Reads (.expression e) ts rest) :
      Reads (.optionalExpression stop (some e)) ts rest
  | returnStmt {keyword value semi ts rest}
      (h : Reads (.optionalExpression .semicolon value) ts (semi :: rest))
      (hs : semi.kind = .semicolon) : Reads (.returnStmt keyword (.ret keyword value)) ts rest
  | initNone {semi ts} (hs : semi.kind = .semicolon) : Reads (.forInit none) (semi :: ts) ts
  | initVar {t stmt ts rest} (hk : t.kind = .kwVar) (h : Reads (.varDecl stmt) ts rest) :
      Reads (.forInit (some stmt)) (t :: ts) rest
  | initExpression {stmt ts rest} (hs : headKind? ts ≠ some .semicolon)
      (hv : headKind? ts ≠ some .kwVar) (h : Reads (.expressionStmt stmt) ts rest) :
      Reads (.forInit (some stmt)) ts rest
  | testInParens {start stop openParen e close ts rest} (ho : openParen.kind = .leftParen)
      (h : Reads (.expression e) ts (close :: rest)) (hc : close.kind = .rightParen) :
      Reads (.testInParens start stop e) (openParen :: ts) rest
  | lastParameter {count param ts} (hc : count < maxArguments) (hp : param.kind = .identifier)
      (hk : headKind? ts ≠ some .comma) : Reads (.moreParameters count [param]) (param :: ts) ts
  | nextParameter {count param comma params ts rest} (hc : count < maxArguments)
      (hp : param.kind = .identifier) (hk : comma.kind = .comma)
      (h : Reads (.moreParameters (count + 1) params) ts rest) :
      Reads (.moreParameters count (param :: params)) (param :: comma :: ts) rest
  | noParameters {ts} (hk : headKind? ts = some .rightParen) : Reads (.parameters []) ts ts
  | someParameters {params ts rest} (hk : headKind? ts ≠ some .rightParen)
      (h : Reads (.moreParameters 0 params) ts rest) : Reads (.parameters params) ts rest
  -- statements and declarations
  | classForm {t stmt ts rest} (hk : t.kind = .kwClass) (h : Reads (.classDecl stmt) ts rest) :
      Reads (.declaration stmt) (t :: ts) rest
  | funForm {t d ts rest} (hk : t.kind = .kwFun) (h : Reads (.function .function d) ts rest) :
      Reads (.declaration (.function d)) (t :: ts) rest
  | varForm {t stmt ts rest} (hk : t.kind = .kwVar) (h : Reads (.varDecl stmt) ts rest) :
      Reads (.declaration stmt) (t :: ts) rest
  | statementForm {stmt ts rest} (hk : (headKind? ts).bind declarationForm? = none)
      (h : Reads (.statement stmt) ts rest) : Reads (.declaration stmt) ts rest
  | baseClass {name openBrace methods close ts rest} (hn : name.kind = .identifier)
      (ho : openBrace.kind = .leftBrace) (h : Reads (.methods methods) ts (close :: rest))
      (hc : close.kind = .rightBrace) :
      Reads (.classDecl (.classDecl name none methods)) (name :: openBrace :: ts) rest
  | derivedClass {name less super openBrace methods close ts rest} (hn : name.kind = .identifier)
      (hl : less.kind = .less) (hs : super.kind = .identifier) (ho : openBrace.kind = .leftBrace)
      (h : Reads (.methods methods) ts (close :: rest)) (hc : close.kind = .rightBrace) :
      Reads (.classDecl (.classDecl name (some ⟨super, none⟩) methods))
        (name :: less :: super :: openBrace :: ts) rest
  | noMethods {ts} (hk : headKind? ts = some .rightBrace ∨ ts = []) : Reads (.methods []) ts ts
  | nextMethod {d ds ts us rest} (hk : headKind? ts ≠ some .rightBrace) (hne : ts ≠ [])
      (h : Reads (.function .method d) ts us) (hm : Reads (.methods ds) us rest) :
      Reads (.methods (d :: ds)) ts rest
  | function {routine name openParen params close openBrace body ts us rest}
      (hn : name.kind = .identifier) (ho : openParen.kind = .leftParen)
      (hp : Reads (.parameters params) ts (close :: openBrace :: us)) (hc : close.kind = .rightParen)
      (hb : openBrace.kind = .leftBrace) (h : Reads (.block body) us rest) :
      Reads (.function routine ⟨name, params, body⟩) (name :: openParen :: ts) rest
  | blockEnd {close ts} (hc : close.kind = .rightBrace) : Reads (.block []) (close :: ts) ts
  | blockNext {stmt body ts us rest} (hk : headKind? ts ≠ some .rightBrace) (hne : ts ≠ [])
      (h : Reads (.declaration stmt) ts us) (hb : Reads (.block body) us rest) :
      Reads (.block (stmt :: body)) ts rest
  | forForm {t stmt ts rest} (hk : t.kind = .kwFor) (h : Reads (.forStmt stmt) ts rest) :
      Reads (.statement stmt) (t :: ts) rest
  | ifForm {t stmt ts rest} (hk : t.kind = .kwIf) (h : Reads (.ifStmt stmt) ts rest) :
      Reads (.statement stmt) (t :: ts) rest
  | printForm {t stmt ts rest} (hk : t.kind = .kwPrint) (h : Reads (.printStmt stmt) ts rest) :
      Reads (.statement stmt) (t :: ts) rest
  | returnForm {t stmt ts rest} (hk : t.kind = .kwReturn) (h : Reads (.returnStmt t stmt) ts rest) :
      Reads (.statement stmt) (t :: ts) rest
  | whileForm {t test body ts us rest} (hk : t.kind = .kwWhile)
      (ht : Reads (.testInParens .whileStart .whileEnd test) ts us)
      (hb : Reads (.statement body) us rest) : Reads (.statement (.loop test body)) (t :: ts) rest
  | blockForm {t body ts rest} (hk : t.kind = .leftBrace) (h : Reads (.block body) ts rest) :
      Reads (.statement (.block body)) (t :: ts) rest
  | expressionForm {stmt ts rest} (hk : (headKind? ts).bind statementForm? = none)
      (h : Reads (.expressionStmt stmt) ts rest) : Reads (.statement stmt) ts rest
  | forStmt {openParen init test semi update close body ts us vs ws rest}
      (ho : openParen.kind = .leftParen) (hi : Reads (.forInit init) ts us)
      (ht : Reads (.optionalExpression .semicolon test) us (semi :: vs)) (hs : semi.kind = .semicolon)
      (hu : Reads (.optionalExpression .rightParen update) vs (close :: ws))
      (hc : close.kind = .rightParen) (hb : Reads (.statement body) ws rest) :
      Reads (.forStmt (.forLoop init test update body)) (openParen :: ts) rest
  | ifThen {test yes ts us rest} (ht : Reads (.testInParens .ifStart .ifEnd test) ts us)
      (hy : Reads (.statement yes) us rest) (hk : headKind? rest ≠ some .kwElse) :
      Reads (.ifStmt (.ifThen test yes)) ts rest
  | ifElse {test yes no kw ts us vs rest} (ht : Reads (.testInParens .ifStart .ifEnd test) ts us)
      (hy : Reads (.statement yes) us (kw :: vs)) (hk : kw.kind = .kwElse)
      (hn : Reads (.statement no) vs rest) : Reads (.ifStmt (.ifElse test yes no)) ts rest
  | finished : Reads (.declarations []) [] []
  | further {stmt stmts ts us rest} (hne : ts ≠ []) (h : Reads (.declaration stmt) ts us)
      (hd : Reads (.declarations stmts) us rest) : Reads (.declarations (stmt :: stmts)) ts rest

/-! ## Reading without a fault -/

section
variable {α β : Type} {x : Parser α} {f : α → Parser β} {c : Cursor} {P : α → List Token → Prop}
  {Q : β → List Token → Prop}

/-- The mark of the end stays, and faults are only added. -/
structure Cursor.Before (c c' : Cursor) : Prop where
  eof : c'.eof = c.eof
  faults : c.diagnostics.length ≤ c'.diagnostics.length

theorem Cursor.Before.refl (c : Cursor) : c.Before c := ⟨rfl, Nat.le_refl _⟩

theorem Cursor.Before.trans {c₁ c₂ c₃ : Cursor} (h : c₁.Before c₂) (h' : c₂.Before c₃) :
    c₁.Before c₃ :=
  ⟨h'.eof.trans h.eof, Nat.le_trans h.faults h'.faults⟩

/-- Nothing was reported in between. -/
def Cursor.Clean (c c' : Cursor) : Prop := c'.diagnostics.length = c.diagnostics.length

/-- What the parser reads, if it reports nothing, is in `P` with the tokens it leaves; what it
refuses it has reported. -/
def Reading (x : Parser α) (c : Cursor) (P : α → List Token → Prop) : Prop :=
  Ends x c (fun a c' => c.Before c' ∧ (c.Clean c' → P a c'.rest))
    (fun i c' => c.Before c' ∧ (i = .refused → ¬ c.Clean c'))

theorem reading_pure {a : α} (h : P a c.rest) : Reading (pure a) c P :=
  ends_pure ⟨.refl c, fun _ => h⟩

theorem reading_outOfFuel : Reading (throw .outOfFuel) c P :=
  ends_throw ⟨.refl c, fun h => by cases h⟩

theorem Reading.mono {P' : α → List Token → Prop} (hx : Reading x c P)
    (h : ∀ a rest, P a rest → P' a rest) : Reading x c P' :=
  Ends.mono hx (fun a c' _ hq => ⟨hq.1, fun hc => h a c'.rest (hq.2 hc)⟩) fun _ _ he => he

/-- Reading one thing after another. -/
theorem reading_bind (hx : Reading x c P)
    (hf : ∀ a c', Reading (f a) c' (fun b rest => P a c'.rest → Q b rest)) :
    Reading (x >>= f) c Q := by
  refine ends_bind (Ends.mono hx (fun a c₁ _ h1 _ => ?_) fun _ _ he => he)
  refine Ends.mono (hf a c₁) (fun b c₂ _ h2 => ⟨h1.1.trans h2.1, fun hc => ?_⟩)
    (fun i c₂ h2 => ⟨h1.1.trans h2.1, fun hi hc => ?_⟩)
  · have l1 := h1.1.faults
    have l2 := h2.1.faults
    unfold Cursor.Clean at *
    exact h2.2 (by omega) (h1.2 (by omega))
  · have l1 := h1.1.faults
    have l2 := h2.1.faults
    unfold Cursor.Clean at *
    exact h2.2 hi (by omega)

theorem reading_map {g : α → β} (hx : Reading x c P) :
    Reading (g <$> x) c (fun b rest => ∃ a, b = g a ∧ P a rest) :=
  ends_map (Ends.mono hx (fun a _ _ hq => ⟨hq.1, fun hc => ⟨a, rfl, hq.2 hc⟩⟩) fun _ _ he => he)

/-! ## Single tokens -/

theorem reading_check (kind : TokenKind) :
    Reading (check kind) c
      (fun b rest => rest = c.rest ∧ (b = true ↔ headKind? c.rest = some kind)) := by
  refine ends_of_ok rfl ⟨.refl c, fun _ => ⟨rfl, ?_⟩⟩
  cases hr : c.rest with
  | nil => simp
  | cons t rest => simp

theorem reading_atEnd : Reading atEnd c (fun b rest => rest = c.rest ∧ (b = true ↔ c.rest = [])) :=
  ends_of_ok rfl ⟨.refl c, fun _ => ⟨rfl, List.isEmpty_iff⟩⟩

/-- What has been taken, if anything: the next token, in which `f` finds something. -/
def Took {γ : Type} (f : TokenKind → Option γ) (ts : List Token) (o : Option (γ × Token))
    (rest : List Token) : Prop :=
  match o with
  | some (g, t) => ts = t :: rest ∧ f t.kind = some g
  | none => rest = ts ∧ (headKind? ts).bind f = none

theorem reading_acceptMap {γ : Type} (f : TokenKind → Option γ) :
    Reading (acceptMap f) c (Took f c.rest) := by
  unfold acceptMap
  cases hr : c.rest with
  | nil => exact ends_of_ok (a := none) (t := c) (by simp only [hr]) ⟨.refl c, fun _ => ⟨hr, rfl⟩⟩
  | cons t rest =>
    cases hf : f t.kind with
    | some g =>
      exact ends_of_ok (a := some (g, t)) (t := { c with rest }) (by simp only [hr, hf])
        ⟨⟨rfl, Nat.le_refl _⟩, fun _ => ⟨rfl, hf⟩⟩
    | none =>
      exact ends_of_ok (a := none) (t := c) (by simp only [hr, hf]) ⟨.refl c, fun _ => ⟨hr, hf⟩⟩

theorem reading_accept (kind : TokenKind) :
    Reading (accept kind) c (fun o rest => match o with
      | some t => c.rest = t :: rest ∧ t.kind = kind
      | none => rest = c.rest ∧ headKind? c.rest ≠ some kind) := by
  unfold accept
  cases hr : c.rest with
  | nil =>
    exact ends_of_ok (a := none) (t := c) (by simp only [hr]) ⟨.refl c, fun _ => ⟨hr, by simp⟩⟩
  | cons t rest =>
    by_cases hk : t.kind = kind
    · exact ends_of_ok (a := some t) (t := { c with rest }) (by simp only [hr, hk, if_true])
        ⟨⟨rfl, Nat.le_refl _⟩, fun _ => ⟨rfl, hk⟩⟩
    · exact ends_of_ok (a := none) (t := c) (by simp only [hr, hk, if_false])
        ⟨.refl c, fun _ => ⟨hr, by simpa using hk⟩⟩

theorem reading_complainAt (t : Token) (cause : Cause) :
    Reading (complainAt t cause) c (fun _ _ => False) := by
  refine ends_of_ok rfl ⟨⟨rfl, ?_⟩, fun hc => ?_⟩
  · simp [Cursor.report]
  · simp [Cursor.Clean, Cursor.report] at hc

theorem reading_complain (cause : Cause) : Reading (complain cause) c (fun _ _ => False) :=
  reading_complainAt c.here cause

theorem reading_refuse (e : Expected) : Reading (refuse e : Parser α) c (fun _ _ => False) :=
  ends_of_error rfl ⟨⟨rfl, by simp [Cursor.report]⟩, fun _ hc => by
    simp [Cursor.Clean, Cursor.report] at hc⟩

theorem reading_expect (kind : TokenKind) (e : Expected) :
    Reading (expect kind e) c (fun t rest => c.rest = t :: rest ∧ t.kind = kind) := by
  refine reading_bind (reading_accept kind) fun o c₁ => ?_
  cases o with
  | some t => exact reading_pure id
  | none => exact (reading_refuse e).mono fun _ _ h => h.elim

/-- A recovery point gives what was read inside it. -/
theorem reading_recover (hx : Reading x c P) :
    Reading (recover x) c (fun o rest => ∃ a, o = some a ∧ P a rest) := by
  cases h : x c with
  | ok a c' =>
    have h1 := Ends.ok hx h
    exact ends_of_ok (a := some a) (t := c') (by simp only [recover, h])
      ⟨h1.1, fun hc => ⟨a, rfl, h1.2 hc⟩⟩
  | error i c' =>
    have h1 := Ends.error hx h
    cases i with
    | refused =>
      exact ends_of_ok (a := none) (t := { c' with rest := synchronize c'.rest })
        (by simp only [recover, h]) ⟨⟨h1.1.eof, h1.1.faults⟩, fun hc => (h1.2 rfl hc).elim⟩
    | outOfFuel =>
      exact ends_of_error (e := .outOfFuel) (t := c') (by simp only [recover, h])
        ⟨h1.1, fun hi => by cases hi⟩

end

/-! ## Expressions -/

/-- What the parsers of expressions read with the depth `n`. -/
structure ReadsExpressions (n : Nat) : Prop where
  expression : ∀ c, Reading (expression n) c fun e => Reads (.expression e) c.rest
  operand : ∀ level c, Reading (operand n level) c fun e => Reads (.operand level e) c.rest
  tighter : ∀ level c, Reading (tighter n level) c fun e => Reads (.tighter level e) c.rest
  joined : ∀ level left c,
    Reading (joined n level left) c fun e => Reads (.joined level left e) c.rest
  unary : ∀ c, Reading (unary n) c fun e => Reads (.unary e) c.rest
  suffixes : ∀ head c, Reading (suffixes n head) c fun e => Reads (.suffixes head e) c.rest
  arguments : ∀ c, Reading (arguments n) c fun es => Reads (.arguments es) c.rest
  moreArguments : ∀ count c,
    Reading (moreArguments n count) c fun es => Reads (.moreArguments count es) c.rest
  primary : ∀ c, Reading (primary n) c fun e => Reads (.primary e) c.rest

section
variable {n : Nat} (ih : ReadsExpressions n)
include ih

theorem ReadsExpressions.expression_succ (c : Cursor) :
    Reading (Grammar.expression (n + 1)) c fun e => Reads (.expression e) c.rest := by
  unfold Grammar.expression
  refine reading_bind (ih.operand .or c) fun target c₁ => ?_
  refine reading_bind (reading_accept .equal) fun o c₂ => ?_
  cases o with
  | none =>
    refine reading_pure fun hk h => ?_
    rw [hk.1]
    exact .plain h hk.2
  | some equals =>
    refine reading_bind (ih.expression c₂) fun value c₃ => ?_
    unfold assignTo
    split
    · refine reading_pure fun hv hk h => ?_
      rw [hk.1] at h
      exact .assignName h hk.2 hv
    · refine reading_pure fun hv hk h => ?_
      rw [hk.1] at h
      exact .assignProperty h hk.2 hv
    · exact reading_bind (reading_complainAt equals _) fun _ _ => reading_pure fun h => h.elim

theorem ReadsExpressions.operand_succ (level : Level) (c : Cursor) :
    Reading (Grammar.operand (n + 1) level) c fun e => Reads (.operand level e) c.rest := by
  unfold Grammar.operand
  exact reading_bind (ih.tighter level c) fun left c₁ =>
    (ih.joined level left c₁).mono fun e rest hj hl => .operand hl hj

theorem ReadsExpressions.tighter_succ (level : Level) (c : Cursor) :
    Reading (Grammar.tighter (n + 1) level) c fun e => Reads (.tighter level e) c.rest := by
  unfold Grammar.tighter
  split
  · rename_i level' hl
    exact (ih.operand level' c).mono fun e rest h => .descend hl h
  · rename_i hl
    exact (ih.unary c).mono fun e rest h => .tightest hl h

theorem ReadsExpressions.joined_succ (level : Level) (left : Expr) (c : Cursor) :
    Reading (Grammar.joined (n + 1) level left) c fun e => Reads (.joined level left e) c.rest := by
  unfold Grammar.joined
  refine reading_bind (reading_acceptMap level.joint?) fun o c₁ => ?_
  cases o with
  | none =>
    refine reading_pure fun hk => ?_
    rw [hk.1]
    exact .joinedStop hk.2
  | some p =>
    obtain ⟨joint, token⟩ := p
    refine reading_bind (ih.tighter level c₁) fun right c₂ => ?_
    refine (ih.joined level (joint.join token left right) c₂).mono fun e rest hj hr hk => ?_
    rw [hk.1]
    exact .joinedMore hk.2 hr hj

theorem ReadsExpressions.unary_succ (c : Cursor) :
    Reading (Grammar.unary (n + 1)) c fun e => Reads (.unary e) c.rest := by
  unfold Grammar.unary
  refine reading_bind (reading_acceptMap unaryOp?) fun o c₁ => ?_
  cases o with
  | none =>
    refine reading_bind (ih.primary c₁) fun head c₂ => ?_
    refine (ih.suffixes head c₂).mono fun e rest hs hp hk => ?_
    rw [hk.1] at hp
    exact .unprefixed hk.2 hp hs
  | some p =>
    obtain ⟨op, token⟩ := p
    refine reading_bind (ih.unary c₁) fun right c₂ => reading_pure fun h hk => ?_
    rw [hk.1]
    exact .prefixed hk.2 h

theorem ReadsExpressions.suffixes_succ (head : Expr) (c : Cursor) :
    Reading (Grammar.suffixes (n + 1) head) c fun e => Reads (.suffixes head e) c.rest := by
  unfold Grammar.suffixes
  refine reading_bind (reading_accept .leftParen) fun o c₁ => ?_
  cases o with
  | some t =>
    refine reading_bind (ih.arguments c₁) fun args c₂ => ?_
    refine reading_bind (reading_expect .rightParen _) fun paren c₃ => ?_
    refine (ih.suffixes (.call head paren args) c₃).mono fun e rest hs hp ha hk => ?_
    rw [hp.1] at ha
    rw [hk.1]
    exact .call hk.2 ha hp.2 hs
  | none =>
    refine reading_bind (reading_accept .dot) fun o c₂ => ?_
    cases o with
    | some t =>
      refine reading_bind (reading_expect .identifier _) fun property c₃ => ?_
      refine (ih.suffixes (.get head property) c₃).mono fun e rest hs hp hd hk => ?_
      rw [← hk.1, hd.1, hp.1]
      exact .property hd.2 hp.2 hs
    | none =>
      refine reading_pure fun hd hk => ?_
      rw [hk.1] at hd
      rw [hd.1]
      exact .suffixStop hk.2 hd.2

theorem ReadsExpressions.arguments_succ (c : Cursor) :
    Reading (Grammar.arguments (n + 1)) c fun es => Reads (.arguments es) c.rest := by
  unfold Grammar.arguments
  refine reading_bind (reading_check .rightParen) fun b c₁ => ?_
  cases b with
  | true =>
    refine reading_pure fun hk => ?_
    rw [hk.1]
    exact .noArguments (hk.2.1 rfl)
  | false =>
    refine (ih.moreArguments 0 c₁).mono fun es rest h hk => ?_
    rw [hk.1] at h
    exact .someArguments (fun he => by cases hk.2.2 he) h

theorem ReadsExpressions.moreArguments_succ (count : Nat) (c : Cursor) :
    Reading (Grammar.moreArguments (n + 1) count) c
      fun es => Reads (.moreArguments count es) c.rest := by
  unfold Grammar.moreArguments
  split
  · exact reading_bind (reading_complain _) fun _ c₁ =>
      reading_bind (ih.expression c₁) fun _ c₂ =>
        reading_bind (reading_accept .comma) fun o c₃ => by
          cases o with
          | some t =>
            exact reading_bind (ih.moreArguments (count + 1) c₃) fun _ _ =>
              reading_pure fun _ _ _ h => h.elim
          | none => exact reading_pure fun _ _ h => h.elim
  · rename_i hc
    refine reading_bind (ih.expression c) fun arg c₁ => ?_
    refine reading_bind (reading_accept .comma) fun o c₂ => ?_
    cases o with
    | some t =>
      refine reading_bind (ih.moreArguments (count + 1) c₂) fun args c₃ => ?_
      refine reading_pure fun hm hk h => ?_
      rw [hk.1] at h
      exact .nextArgument (Nat.lt_of_not_le hc) h hk.2 hm
    | none =>
      refine reading_pure fun hk h => ?_
      rw [hk.1]
      exact .lastArgument (Nat.lt_of_not_le hc) h hk.2

theorem ReadsExpressions.primary_succ (c : Cursor) :
    Reading (Grammar.primary (n + 1)) c fun e => Reads (.primary e) c.rest := by
  unfold Grammar.primary
  refine reading_bind (reading_acceptMap start?) fun o c₁ => ?_
  cases o with
  | none => exact (reading_refuse _).mono fun _ _ h => h.elim
  | some p =>
    obtain ⟨start, token⟩ := p
    cases start with
    | constant =>
      refine reading_pure fun hk => ?_
      rw [hk.1]
      exact .constant hk.2
    | name =>
      refine reading_pure fun hk => ?_
      rw [hk.1]
      exact .name (kind_of_start? hk.2 rfl)
    | thisWord =>
      refine reading_pure fun hk => ?_
      rw [hk.1]
      exact .thisWord (kind_of_start? hk.2 rfl)
    | superWord =>
      refine reading_bind (reading_expect .dot _) fun dot c₂ => ?_
      refine reading_bind (reading_expect .identifier _) fun method c₃ => ?_
      refine reading_pure fun hm hd hk => ?_
      rw [hk.1, hd.1, hm.1]
      exact .superWord (kind_of_start? hk.2 rfl) hd.2 hm.2
    | paren =>
      refine reading_bind (ih.expression c₁) fun inner c₂ => ?_
      refine reading_bind (reading_expect .rightParen _) fun close c₃ => ?_
      refine reading_pure fun hc h hk => ?_
      rw [hc.1] at h
      rw [hk.1]
      exact .group (kind_of_start? hk.2 rfl) h hc.2

end

theorem readsExpressions : ∀ n, ReadsExpressions n
  | 0 => by constructor <;> intros <;> exact reading_outOfFuel
  | n + 1 =>
    have ih := readsExpressions n
    { expression := ih.expression_succ
      operand := ih.operand_succ
      tighter := ih.tighter_succ
      joined := ih.joined_succ
      unary := ih.unary_succ
      suffixes := ih.suffixes_succ
      arguments := ih.arguments_succ
      moreArguments := ih.moreArguments_succ
      primary := ih.primary_succ }

/-! ## Statements without statements inside -/

section
variable (n : Nat) (c : Cursor)

theorem reading_varDecl : Reading (varDecl n) c fun stmt => Reads (.varDecl stmt) c.rest := by
  unfold varDecl
  refine reading_bind (reading_expect .identifier _) fun name c₁ => ?_
  refine reading_bind (reading_accept .equal) fun o c₂ => ?_
  cases o with
  | some eq =>
    refine reading_bind (reading_map ((readsExpressions n).expression c₂)) fun init c₃ => ?_
    refine reading_bind (reading_expect .semicolon _) fun semi c₄ => ?_
    refine reading_pure fun hs he hq hn => ?_
    obtain ⟨e, rfl, h⟩ := he
    rw [hs.1] at h
    rw [hn.1, hq.1]
    exact .varInit hn.2 hq.2 h hs.2
  | none =>
    refine reading_bind (reading_pure (P := fun o rest => o = none ∧ rest = c₂.rest) ⟨rfl, rfl⟩)
      fun init c₃ => ?_
    refine reading_bind (reading_expect .semicolon _) fun semi c₄ => ?_
    refine reading_pure fun hs hi hq hn => ?_
    obtain ⟨rfl, hr⟩ := hi
    rw [hn.1, ← hq.1, ← hr, hs.1]
    exact .varPlain hn.2 hs.2

theorem reading_expressionStmt :
    Reading (expressionStmt n) c fun stmt => Reads (.expressionStmt stmt) c.rest := by
  unfold expressionStmt
  refine reading_bind ((readsExpressions n).expression c) fun e c₁ => ?_
  refine reading_bind (reading_expect .semicolon _) fun semi c₂ => reading_pure fun hs h => ?_
  rw [hs.1] at h
  exact .expressionStmt h hs.2

theorem reading_printStmt : Reading (printStmt n) c fun stmt => Reads (.printStmt stmt) c.rest := by
  unfold printStmt
  refine reading_bind ((readsExpressions n).expression c) fun e c₁ => ?_
  refine reading_bind (reading_expect .semicolon _) fun semi c₂ => reading_pure fun hs h => ?_
  rw [hs.1] at h
  exact .printStmt h hs.2

theorem reading_optionalExpression (stop : TokenKind) :
    Reading (optionalExpression n stop) c fun e => Reads (.optionalExpression stop e) c.rest := by
  unfold optionalExpression
  refine reading_bind (reading_check stop) fun b c₁ => ?_
  cases b with
  | true =>
    refine reading_pure fun hk => ?_
    rw [hk.1]
    exact .absent (hk.2.1 rfl)
  | false =>
    refine (reading_map ((readsExpressions n).expression c₁)).mono fun o rest h hk => ?_
    obtain ⟨e, rfl, h⟩ := h
    rw [hk.1] at h
    exact .present (fun he => by cases hk.2.2 he) h

theorem reading_returnStmt (keyword : Token) :
    Reading (returnStmt n keyword) c fun stmt => Reads (.returnStmt keyword stmt) c.rest := by
  unfold returnStmt
  refine reading_bind (reading_optionalExpression n c .semicolon) fun value c₁ => ?_
  refine reading_bind (reading_expect .semicolon _) fun semi c₂ => reading_pure fun hs h => ?_
  rw [hs.1] at h
  exact .returnStmt h hs.2

theorem reading_forInit : Reading (forInit n) c fun stmt => Reads (.forInit stmt) c.rest := by
  unfold forInit
  refine reading_bind (reading_accept .semicolon) fun o c₁ => ?_
  cases o with
  | some semi =>
    refine reading_pure fun hs => ?_
    rw [hs.1]
    exact .initNone hs.2
  | none =>
    refine reading_bind (reading_accept .kwVar) fun o c₂ => ?_
    cases o with
    | some t =>
      refine (reading_map (reading_varDecl n c₂)).mono fun o rest h hk hs => ?_
      obtain ⟨stmt, rfl, h⟩ := h
      rw [← hs.1, hk.1]
      exact .initVar hk.2 h
    | none =>
      refine (reading_map (reading_expressionStmt n c₂)).mono fun o rest h hk hs => ?_
      obtain ⟨stmt, rfl, h⟩ := h
      rw [hk.1] at h
      rw [hs.1] at h hk
      exact .initExpression hs.2 hk.2 h

theorem reading_testInParens (start stop : Expected) :
    Reading (testInParens n start stop) c fun e => Reads (.testInParens start stop e) c.rest := by
  unfold testInParens
  refine reading_bind (reading_expect .leftParen start) fun t c₁ => ?_
  refine reading_bind ((readsExpressions n).expression c₁) fun e c₂ => ?_
  refine reading_bind (reading_expect .rightParen stop) fun close c₃ => ?_
  refine reading_pure fun hc h ho => ?_
  rw [hc.1] at h
  rw [ho.1]
  exact .testInParens ho.2 h hc.2

end

theorem reading_moreParameters : ∀ (n count : Nat) (c : Cursor),
    Reading (moreParameters n count) c fun params => Reads (.moreParameters count params) c.rest
  | 0, _, _ => reading_outOfFuel
  | n + 1, count, c => by
    unfold moreParameters
    split
    · exact reading_bind (reading_complain _) fun _ c₁ =>
        reading_bind (reading_expect .identifier _) fun _ c₂ =>
          reading_bind (reading_accept .comma) fun o c₃ => by
            cases o with
            | some t =>
              exact reading_bind (reading_moreParameters n (count + 1) c₃) fun _ _ =>
                reading_pure fun _ _ _ h => h.elim
            | none => exact reading_pure fun _ _ h => h.elim
    · rename_i hc
      refine reading_bind (reading_expect .identifier _) fun param c₁ => ?_
      refine reading_bind (reading_accept .comma) fun o c₂ => ?_
      cases o with
      | some t =>
        refine reading_bind (reading_moreParameters n (count + 1) c₂) fun params c₃ => ?_
        refine reading_pure fun h hk hp => ?_
        rw [hp.1, hk.1]
        exact .nextParameter (Nat.lt_of_not_le hc) hp.2 hk.2 h
      | none =>
        refine reading_pure fun hk hp => ?_
        rw [hp.1, hk.1]
        exact .lastParameter (Nat.lt_of_not_le hc) hp.2 hk.2

theorem reading_parameters (n : Nat) (c : Cursor) :
    Reading (parameters n) c fun params => Reads (.parameters params) c.rest := by
  unfold parameters
  refine reading_bind (reading_check .rightParen) fun b c₁ => ?_
  cases b with
  | true =>
    refine reading_pure fun hk => ?_
    rw [hk.1]
    exact .noParameters (hk.2.1 rfl)
  | false =>
    refine (reading_moreParameters n 0 c₁).mono fun params rest h hk => ?_
    rw [hk.1] at h
    exact .someParameters (fun he => by cases hk.2.2 he) h

/-! ## Statements and declarations -/

/-- What the parsers of statements read with the depth `n`. -/
structure ReadsStatements (n : Nat) : Prop where
  declaration : ∀ c, Reading (declaration n) c
    fun o rest => ∃ stmt, o = some stmt ∧ Reads (.declaration stmt) c.rest rest
  classDecl : ∀ c, Reading (classDecl n) c fun stmt => Reads (.classDecl stmt) c.rest
  methods : ∀ c, Reading (methods n) c fun ds => Reads (.methods ds) c.rest
  function : ∀ routine c, Reading (function n routine) c fun d => Reads (.function routine d) c.rest
  block : ∀ c, Reading (block n) c fun body => Reads (.block body) c.rest
  statement : ∀ c, Reading (statement n) c fun stmt => Reads (.statement stmt) c.rest
  forStmt : ∀ c, Reading (forStmt n) c fun stmt => Reads (.forStmt stmt) c.rest
  ifStmt : ∀ c, Reading (ifStmt n) c fun stmt => Reads (.ifStmt stmt) c.rest

section
variable {n : Nat} (ih : ReadsStatements n)
include ih

theorem ReadsStatements.declaration_succ (c : Cursor) :
    Reading (Grammar.declaration (n + 1)) c
      fun o rest => ∃ stmt, o = some stmt ∧ Reads (.declaration stmt) c.rest rest := by
  unfold Grammar.declaration
  refine reading_recover (reading_bind (reading_acceptMap declarationForm?) fun o c₁ => ?_)
  cases o with
  | none =>
    refine (ih.statement c₁).mono fun stmt rest h hk => ?_
    rw [hk.1] at h
    exact .statementForm hk.2 h
  | some p =>
    obtain ⟨form, t⟩ := p
    have hvar : Reading (varDecl n) c₁ (fun stmt rest => c.rest = t :: c₁.rest ∧ t.kind = .kwVar →
        Reads (.declaration stmt) c.rest rest) := by
      refine (reading_varDecl n c₁).mono fun stmt rest h hk => ?_
      rw [hk.1]
      exact .varForm hk.2 h
    cases form with
    | classForm =>
      refine (ih.classDecl c₁).mono fun stmt rest h hk => ?_
      rw [hk.1]
      exact .classForm (declarationForm?_eq_some hk.2).1 h
    | funForm =>
      refine (reading_map (ih.function .function c₁)).mono fun stmt rest h hk => ?_
      obtain ⟨d, rfl, h⟩ := h
      rw [hk.1]
      exact .funForm (declarationForm?_eq_some hk.2).1 h
    | varForm => exact hvar.mono fun _ _ h hk => h ⟨hk.1, (declarationForm?_eq_some hk.2).1⟩
    | _ => exact hvar.mono fun _ _ h hk => by cases (declarationForm?_eq_some hk.2).2

theorem ReadsStatements.classDecl_succ (c : Cursor) :
    Reading (Grammar.classDecl (n + 1)) c fun stmt => Reads (.classDecl stmt) c.rest := by
  unfold Grammar.classDecl
  refine reading_bind (reading_expect .identifier _) fun name c₁ => ?_
  refine reading_bind (reading_accept .less) fun o c₂ => ?_
  cases o with
  | some less =>
    refine reading_bind (reading_map (reading_expect .identifier _)) fun superclass c₃ => ?_
    refine reading_bind (reading_expect .leftBrace _) fun openBrace c₄ => ?_
    refine reading_bind (ih.methods c₄) fun methods c₅ => ?_
    refine reading_bind (reading_expect .rightBrace _) fun close c₆ => ?_
    refine reading_pure fun hc h ho hs hl hn => ?_
    obtain ⟨super, rfl, hs⟩ := hs
    rw [hc.1] at h
    rw [hn.1, hl.1, hs.1, ho.1]
    exact .derivedClass hn.2 hl.2 hs.2 ho.2 h hc.2
  | none =>
    refine reading_bind (reading_pure (P := fun o rest => o = none ∧ rest = c₂.rest) ⟨rfl, rfl⟩)
      fun superclass c₃ => ?_
    refine reading_bind (reading_expect .leftBrace _) fun openBrace c₄ => ?_
    refine reading_bind (ih.methods c₄) fun methods c₅ => ?_
    refine reading_bind (reading_expect .rightBrace _) fun close c₆ => ?_
    refine reading_pure fun hc h ho hs hl hn => ?_
    obtain ⟨rfl, hr⟩ := hs
    rw [hc.1] at h
    rw [hn.1, ← hl.1, ← hr, ho.1]
    exact .baseClass hn.2 ho.2 h hc.2

theorem ReadsStatements.methods_succ (c : Cursor) :
    Reading (Grammar.methods (n + 1)) c fun ds => Reads (.methods ds) c.rest := by
  unfold Grammar.methods
  refine reading_bind (reading_check .rightBrace) fun closes c₁ => ?_
  refine reading_bind reading_atEnd fun ends c₂ => ?_
  by_cases hb : (closes || ends) = true
  · rw [if_pos hb]
    refine reading_pure fun he hk => ?_
    rw [he.1, hk.1]
    refine .noMethods ?_
    rcases Bool.or_eq_true_iff.1 hb with h | h
    · exact .inl (hk.2.1 h)
    · exact .inr (hk.1 ▸ he.2.1 h)
  · rw [if_neg hb]
    simp only [Bool.or_eq_true, not_or] at hb
    refine reading_bind (ih.function .method c₂) fun d c₃ => ?_
    refine reading_bind (ih.methods c₃) fun ds c₄ => reading_pure fun hm h he hk => ?_
    rw [he.1] at h
    rw [hk.1] at h he
    exact .nextMethod (fun h => hb.1 (hk.2.2 h)) (fun h => hb.2 (he.2.2 h)) h hm

theorem ReadsStatements.function_succ (routine : Routine) (c : Cursor) :
    Reading (Grammar.function (n + 1) routine) c fun d => Reads (.function routine d) c.rest := by
  unfold Grammar.function
  refine reading_bind (reading_expect .identifier _) fun name c₁ => ?_
  refine reading_bind (reading_expect .leftParen _) fun openParen c₂ => ?_
  refine reading_bind (reading_parameters n c₂) fun params c₃ => ?_
  refine reading_bind (reading_expect .rightParen _) fun close c₄ => ?_
  refine reading_bind (reading_expect .leftBrace _) fun openBrace c₅ => ?_
  refine reading_bind (ih.block c₅) fun body c₆ => reading_pure fun h hb hc hp ho hn => ?_
  rw [hc.1, hb.1] at hp
  rw [hn.1, ho.1]
  exact .function hn.2 ho.2 hp hc.2 hb.2 h

theorem ReadsStatements.block_succ (c : Cursor) :
    Reading (Grammar.block (n + 1)) c fun body => Reads (.block body) c.rest := by
  unfold Grammar.block
  refine reading_bind (reading_check .rightBrace) fun closes c₁ => ?_
  refine reading_bind reading_atEnd fun ends c₂ => ?_
  by_cases hb : (closes || ends) = true
  · rw [if_pos hb]
    refine reading_bind (reading_expect .rightBrace _) fun close c₃ => ?_
    refine reading_pure fun hc he hk => ?_
    rw [← hk.1, ← he.1, hc.1]
    exact .blockEnd hc.2
  · rw [if_neg hb]
    simp only [Bool.or_eq_true, not_or] at hb
    refine reading_bind (ih.declaration c₂) fun first c₃ => ?_
    refine reading_bind (ih.block c₃) fun body c₄ => reading_pure fun hrest h he hk => ?_
    obtain ⟨stmt, rfl, h⟩ := h
    rw [he.1] at h
    rw [hk.1] at h he
    exact .blockNext (fun h => hb.1 (hk.2.2 h)) (fun h => hb.2 (he.2.2 h)) h hrest

theorem ReadsStatements.statement_succ (c : Cursor) :
    Reading (Grammar.statement (n + 1)) c fun stmt => Reads (.statement stmt) c.rest := by
  unfold Grammar.statement
  refine reading_bind (reading_acceptMap statementForm?) fun o c₁ => ?_
  cases o with
  | none =>
    refine (reading_expressionStmt n c₁).mono fun stmt rest h hk => ?_
    rw [hk.1] at h
    exact .expressionForm hk.2 h
  | some p =>
    obtain ⟨form, t⟩ := p
    have hblock : Reading (.block <$> Grammar.block n) c₁ (fun stmt rest =>
        c.rest = t :: c₁.rest ∧ t.kind = .leftBrace → Reads (.statement stmt) c.rest rest) := by
      refine (reading_map (ih.block c₁)).mono fun stmt rest h hk => ?_
      obtain ⟨body, rfl, h⟩ := h
      rw [hk.1]
      exact .blockForm hk.2 h
    cases form with
    | forForm =>
      refine (ih.forStmt c₁).mono fun stmt rest h hk => ?_
      rw [hk.1]
      exact .forForm (statementForm?_eq_some hk.2).1 h
    | ifForm =>
      refine (ih.ifStmt c₁).mono fun stmt rest h hk => ?_
      rw [hk.1]
      exact .ifForm (statementForm?_eq_some hk.2).1 h
    | printForm =>
      refine (reading_printStmt n c₁).mono fun stmt rest h hk => ?_
      rw [hk.1]
      exact .printForm (statementForm?_eq_some hk.2).1 h
    | returnForm =>
      refine (reading_returnStmt n c₁ t).mono fun stmt rest h hk => ?_
      rw [hk.1]
      exact .returnForm (statementForm?_eq_some hk.2).1 h
    | whileForm =>
      refine reading_bind (reading_testInParens n c₁ _ _) fun test c₂ => ?_
      refine reading_bind (ih.statement c₂) fun body c₃ => reading_pure fun hb ht hk => ?_
      rw [hk.1]
      exact .whileForm (statementForm?_eq_some hk.2).1 ht hb
    | blockForm => exact hblock.mono fun _ _ h hk => h ⟨hk.1, (statementForm?_eq_some hk.2).1⟩
    | _ => exact hblock.mono fun _ _ h hk => by cases (statementForm?_eq_some hk.2).2

theorem ReadsStatements.forStmt_succ (c : Cursor) :
    Reading (Grammar.forStmt (n + 1)) c fun stmt => Reads (.forStmt stmt) c.rest := by
  unfold Grammar.forStmt
  refine reading_bind (reading_expect .leftParen _) fun openParen c₁ => ?_
  refine reading_bind (reading_forInit n c₁) fun init c₂ => ?_
  refine reading_bind (reading_optionalExpression n c₂ .semicolon) fun test c₃ => ?_
  refine reading_bind (reading_expect .semicolon _) fun semi c₄ => ?_
  refine reading_bind (reading_optionalExpression n c₄ .rightParen) fun update c₅ => ?_
  refine reading_bind (reading_expect .rightParen _) fun close c₆ => ?_
  refine reading_bind (ih.statement c₆) fun body c₇ => reading_pure fun hb hc hu hs ht hi ho => ?_
  rw [hs.1] at ht
  rw [hc.1] at hu
  rw [ho.1]
  exact .forStmt ho.2 hi ht hs.2 hu hc.2 hb

theorem ReadsStatements.ifStmt_succ (c : Cursor) :
    Reading (Grammar.ifStmt (n + 1)) c fun stmt => Reads (.ifStmt stmt) c.rest := by
  unfold Grammar.ifStmt
  refine reading_bind (reading_testInParens n c _ _) fun test c₁ => ?_
  refine reading_bind (ih.statement c₁) fun yes c₂ => ?_
  refine reading_bind (reading_accept .kwElse) fun o c₃ => ?_
  cases o with
  | some kw =>
    refine reading_bind (ih.statement c₃) fun no c₄ => reading_pure fun hn hk hy ht => ?_
    rw [hk.1] at hy
    exact .ifElse ht hy hk.2 hn
  | none =>
    refine reading_pure fun hk hy ht => ?_
    rw [hk.1]
    exact .ifThen ht hy hk.2

end

theorem readsStatements : ∀ n, ReadsStatements n
  | 0 => by constructor <;> intros <;> exact reading_outOfFuel
  | n + 1 =>
    have ih := readsStatements n
    { declaration := ih.declaration_succ
      classDecl := ih.classDecl_succ
      methods := ih.methods_succ
      function := ih.function_succ
      block := ih.block_succ
      statement := ih.statement_succ
      forStmt := ih.forStmt_succ
      ifStmt := ih.ifStmt_succ }

theorem reading_declarations : ∀ (n : Nat) (c : Cursor),
    Reading (declarations n) c
      fun stmts rest => rest = [] ∧ Reads (.declarations stmts) c.rest rest
  | 0, _ => reading_outOfFuel
  | n + 1, c => by
    unfold declarations
    refine reading_bind reading_atEnd fun b c₁ => ?_
    cases b with
    | true =>
      refine reading_pure fun he => ?_
      have hnil := he.2.1 rfl
      rw [he.1, hnil]
      exact ⟨rfl, .finished⟩
    | false =>
      refine reading_bind ((readsStatements n).declaration c₁) fun first c₂ => ?_
      refine reading_bind (reading_declarations n c₂) fun stmts c₃ => ?_
      refine reading_pure fun hd h he => ?_
      obtain ⟨stmt, rfl, h⟩ := h
      rw [he.1] at h
      exact ⟨hd.1, .further (fun hnil => by cases he.2.2 hnil) h hd.2⟩

end Lox.Grammar

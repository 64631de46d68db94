import Lox.Proofs.Reading

/-!
# The parser never uses up its depth

Each parser has a cost: with a bound of at least twenty for each token still to be read, and the cost,
it does not end for want of depth. It never moves backwards, and a declaration that does not begin
at the end moves on, whether it is read or refused. So every list of tokens is read to its end
(`declarations_ends`).
-/

namespace Lox.Grammar

section
variable {α β : Type} {x : Parser α} {f : α → Parser β} {c : Cursor} {Q : α → Nat → Prop}
  {R : β → Nat → Prop} {N : Nat}

/-- The parser does not use up its depth. `Q` holds of what it returns and of the number of tokens
it leaves; what it refuses, it refuses with at most `N` tokens left. -/
def Within (x : Parser α) (c : Cursor) (Q : α → Nat → Prop) (N : Nat) : Prop :=
  Ends x c (fun a c' => Q a c'.rest.length) (fun i c' => i = .refused ∧ c'.rest.length ≤ N)

theorem within_pure {a : α} (h : Q a c.rest.length) : Within (pure a) c Q N := ends_pure h

theorem Within.mono {Q' : α → Nat → Prop} {N' : Nat} (hx : Within x c Q N)
    (hq : ∀ a k, Q a k → Q' a k) (hn : N ≤ N') : Within x c Q' N' :=
  Ends.mono hx (fun a _ _ h => hq a _ h) fun _ _ h => ⟨h.1, Nat.le_trans h.2 hn⟩

theorem within_bind (hx : Within x c Q N)
    (hf : ∀ a c', Q a c'.rest.length → Within (f a) c' R N) : Within (x >>= f) c R N :=
  ends_bind (Ends.mono hx (fun a c' _ h _ => hf a c' h) fun _ _ h => h)

theorem within_map {g : α → β} (hx : Within x c Q N) :
    Within (g <$> x) c (fun _ k => ∃ a, Q a k) N :=
  ends_map (Ends.mono hx (fun a _ _ h => ⟨a, h⟩) fun _ _ h => h)

/-! ## Single tokens -/

theorem within_check (kind : TokenKind) : Within (check kind) c (fun _ k => k = c.rest.length) N :=
  ends_of_ok rfl rfl

theorem within_atEnd :
    Within atEnd c (fun b k => k = c.rest.length ∧ (b = false → 0 < c.rest.length)) N := by
  refine ends_of_ok rfl ⟨rfl, fun h => ?_⟩
  cases hr : c.rest with
  | nil => rw [hr] at h; cases h
  | cons t ts => simp

/-- Of the tokens that were left, one is gone if something was taken. -/
def Taken (k : Nat) {γ : Type} (o : Option γ) (k' : Nat) : Prop :=
  match o with
  | some _ => k' < k
  | none => k' = k

theorem within_acceptMap {γ : Type} (f : TokenKind → Option γ) :
    Within (acceptMap f) c (Taken c.rest.length) N := by
  unfold acceptMap
  cases hr : c.rest with
  | nil => exact ends_of_ok (a := none) (t := c) (by simp only [hr]) (by simp [Taken, hr])
  | cons t rest =>
    cases hf : f t.kind with
    | some g =>
      exact ends_of_ok (a := some (g, t)) (t := { c with rest }) (by simp only [hr, hf])
        (by simp [Taken])
    | none => exact ends_of_ok (a := none) (t := c) (by simp only [hr, hf]) (by simp [Taken, hr])

theorem within_accept (kind : TokenKind) : Within (accept kind) c (Taken c.rest.length) N := by
  unfold accept
  cases hr : c.rest with
  | nil => exact ends_of_ok (a := none) (t := c) (by simp only [hr]) (by simp [Taken, hr])
  | cons t rest =>
    by_cases hk : t.kind = kind
    · exact ends_of_ok (a := some t) (t := { c with rest }) (by simp only [hr, hk, if_true])
        (by simp [Taken])
    · exact ends_of_ok (a := none) (t := c) (by simp only [hr, hk, if_false])
        (by simp [Taken, hr])

theorem within_complainAt (t : Token) (cause : Cause) :
    Within (complainAt t cause) c (fun _ k => k = c.rest.length) N :=
  ends_of_ok rfl rfl

theorem within_complain (cause : Cause) :
    Within (complain cause) c (fun _ k => k = c.rest.length) N :=
  ends_of_ok rfl rfl

theorem within_warn {p : Prop} [Decidable p] {cause : Cause} {k : Unit → Parser α}
    (hk : ∀ c', c'.rest.length = c.rest.length → Within (k ()) c' Q N) :
    Within (if p then complain cause >>= k else k ()) c Q N := by
  split
  · exact within_bind (within_complain cause) fun _ c' h => hk c' h
  · exact hk c rfl

theorem within_refuse (e : Expected) (hn : c.rest.length ≤ N) : Within (refuse e) c Q N :=
  ends_of_error rfl ⟨rfl, hn⟩

theorem within_expect (kind : TokenKind) (e : Expected) (hn : c.rest.length ≤ N) :
    Within (expect kind e) c (fun _ k => k < c.rest.length) N := by
  refine within_bind (within_accept kind) fun o c₁ h => ?_
  cases o with
  | some t => exact within_pure h
  | none => exact within_refuse e (Nat.le_trans (Nat.le_of_eq h) hn)

end

/-! ## Expressions -/

/-- The cost of an operand of a level. -/
def Level.cost : Level → Nat
  | .or => 14
  | .and => 12
  | .equality => 10
  | .comparison => 8
  | .term => 6
  | .factor => 4

theorem Level.cost_le (level : Level) : level.cost ≤ 14 := by cases level <;> decide

theorem Level.le_cost (level : Level) : 4 ≤ level.cost := by cases level <;> decide

theorem Level.cost_tighter {level level' : Level} (h : level.tighter? = some level') :
    level'.cost + 2 = level.cost := by
  cases level <;> cases h <;> rfl

theorem Level.cost_tightest {level : Level} (h : level.tighter? = none) : level.cost = 4 := by
  cases level <;> first | rfl | cases h

/-- With the depth `n` the parsers of expressions do not use it up, and move on. -/
structure ExpressionsWithin (n : Nat) : Prop where
  expression : ∀ c, 20 * c.rest.length + 15 ≤ n →
    Within (expression n) c (fun _ k => k < c.rest.length) c.rest.length
  operand : ∀ level c, 20 * c.rest.length + level.cost ≤ n →
    Within (operand n level) c (fun _ k => k < c.rest.length) c.rest.length
  tighter : ∀ level c, 20 * c.rest.length + level.cost ≤ n + 1 →
    Within (tighter n level) c (fun _ k => k < c.rest.length) c.rest.length
  joined : ∀ level left c, 20 * c.rest.length + 1 ≤ n →
    Within (joined n level left) c (fun _ k => k ≤ c.rest.length) c.rest.length
  unary : ∀ c, 20 * c.rest.length + 2 ≤ n →
    Within (unary n) c (fun _ k => k < c.rest.length) c.rest.length
  suffixes : ∀ head c, 20 * c.rest.length + 1 ≤ n →
    Within (suffixes n head) c (fun _ k => k ≤ c.rest.length) c.rest.length
  arguments : ∀ c, 20 * c.rest.length + 17 ≤ n →
    Within (arguments n) c (fun _ k => k ≤ c.rest.length) c.rest.length
  moreArguments : ∀ count c, 20 * c.rest.length + 16 ≤ n →
    Within (moreArguments n count) c (fun _ k => k ≤ c.rest.length) c.rest.length
  primary : ∀ c, 20 * c.rest.length + 1 ≤ n →
    Within (primary n) c (fun _ k => k < c.rest.length) c.rest.length

section
variable {n : Nat} (ih : ExpressionsWithin n)
include ih

theorem ExpressionsWithin.expression_succ (c : Cursor) (hn : 20 * c.rest.length + 15 ≤ n + 1) :
    Within (Grammar.expression (n + 1)) c (fun _ k => k < c.rest.length) c.rest.length := by
  unfold Grammar.expression
  refine within_bind (ih.operand .or c (by simp only [Level.cost]; omega)) fun target c₁ h₁ => ?_
  refine within_bind (within_accept .equal) fun o c₂ h₂ => ?_
  cases o with
  | none => exact within_pure (by simp only [Taken] at h₂; omega)
  | some equals =>
    simp only [Taken] at h₂
    refine within_bind ((ih.expression c₂ (by omega)).mono (fun _ _ h => h) (by omega))
      fun value c₃ h₃ => ?_
    unfold assignTo
    split
    · exact within_pure (by omega)
    · exact within_pure (by omega)
    · exact within_bind (within_complainAt equals _) fun _ c₄ h₄ => within_pure (by omega)

theorem ExpressionsWithin.operand_succ (level : Level) (c : Cursor)
    (hn : 20 * c.rest.length + level.cost ≤ n + 1) :
    Within (Grammar.operand (n + 1) level) c (fun _ k => k < c.rest.length) c.rest.length := by
  unfold Grammar.operand
  refine within_bind (ih.tighter level c hn) fun left c₁ h₁ => ?_
  exact (ih.joined level left c₁ (by omega)).mono (fun _ _ h => by omega) (by omega)

theorem ExpressionsWithin.tighter_succ (level : Level) (c : Cursor)
    (hn : 20 * c.rest.length + level.cost ≤ n + 1 + 1) :
    Within (Grammar.tighter (n + 1) level) c (fun _ k => k < c.rest.length) c.rest.length := by
  unfold Grammar.tighter
  split
  · rename_i level' hl
    have := Level.cost_tighter hl
    exact ih.operand level' c (by omega)
  · rename_i hl
    have := Level.cost_tightest hl
    exact ih.unary c (by omega)

theorem ExpressionsWithin.joined_succ (level : Level) (left : Expr) (c : Cursor)
    (hn : 20 * c.rest.length + 1 ≤ n + 1) :
    Within (Grammar.joined (n + 1) level left) c (fun _ k => k ≤ c.rest.length) c.rest.length := by
  unfold Grammar.joined
  refine within_bind (within_acceptMap level.joint?) fun o c₁ h₁ => ?_
  cases o with
  | none => exact within_pure (by simp only [Taken] at h₁; omega)
  | some p =>
    simp only [Taken] at h₁
    have := level.cost_le
    refine within_bind ((ih.tighter level c₁ (by omega)).mono (fun _ _ h => h) (by omega))
      fun right c₂ h₂ => ?_
    exact (ih.joined level _ c₂ (by omega)).mono (fun _ _ h => by omega) (by omega)

theorem ExpressionsWithin.unary_succ (c : Cursor) (hn : 20 * c.rest.length + 2 ≤ n + 1) :
    Within (Grammar.unary (n + 1)) c (fun _ k => k < c.rest.length) c.rest.length := by
  unfold Grammar.unary
  refine within_bind (within_acceptMap unaryOp?) fun o c₁ h₁ => ?_
  cases o with
  | none =>
    simp only [Taken] at h₁
    refine within_bind ((ih.primary c₁ (by omega)).mono (fun _ _ h => h) (by omega))
      fun head c₂ h₂ => ?_
    exact (ih.suffixes head c₂ (by omega)).mono (fun _ _ h => by omega) (by omega)
  | some p =>
    simp only [Taken] at h₁
    exact within_bind ((ih.unary c₁ (by omega)).mono (fun _ _ h => h) (by omega))
      fun right c₂ h₂ => within_pure (by omega)

theorem ExpressionsWithin.suffixes_succ (head : Expr) (c : Cursor)
    (hn : 20 * c.rest.length + 1 ≤ n + 1) :
    Within (Grammar.suffixes (n + 1) head) c (fun _ k => k ≤ c.rest.length) c.rest.length := by
  unfold Grammar.suffixes
  refine within_bind (within_accept .leftParen) fun o c₁ h₁ => ?_
  cases o with
  | some t =>
    simp only [Taken] at h₁
    refine within_bind ((ih.arguments c₁ (by omega)).mono (fun _ _ h => h) (by omega))
      fun args c₂ h₂ => ?_
    refine within_bind (within_expect .rightParen _ (by omega)) fun paren c₃ h₃ => ?_
    exact (ih.suffixes _ c₃ (by omega)).mono (fun _ _ h => by omega) (by omega)
  | none =>
    simp only [Taken] at h₁
    refine within_bind (within_accept .dot) fun o c₂ h₂ => ?_
    cases o with
    | some t =>
      simp only [Taken] at h₂
      refine within_bind (within_expect .identifier _ (by omega)) fun property c₃ h₃ => ?_
      exact (ih.suffixes _ c₃ (by omega)).mono (fun _ _ h => by omega) (by omega)
    | none => exact within_pure (by simp only [Taken] at h₂; omega)

theorem ExpressionsWithin.arguments_succ (c : Cursor) (hn : 20 * c.rest.length + 17 ≤ n + 1) :
    Within (Grammar.arguments (n + 1)) c (fun _ k => k ≤ c.rest.length) c.rest.length := by
  unfold Grammar.arguments
  refine within_bind (within_check .rightParen) fun b c₁ h₁ => ?_
  cases b with
  | true => exact within_pure (Nat.le_of_eq h₁)
  | false => exact (ih.moreArguments 0 c₁ (by omega)).mono (fun _ _ h => by omega) (by omega)

theorem ExpressionsWithin.moreArguments_succ (count : Nat) (c : Cursor)
    (hn : 20 * c.rest.length + 16 ≤ n + 1) :
    Within (Grammar.moreArguments (n + 1) count) c (fun _ k => k ≤ c.rest.length)
      c.rest.length := by
  unfold Grammar.moreArguments
  refine within_warn fun c' hc => ?_
  refine within_bind ((ih.expression c' (by omega)).mono (fun _ _ h => h) (by omega))
    fun arg c₁ h₁ => ?_
  refine within_bind (within_accept .comma) fun o c₂ h₂ => ?_
  cases o with
  | some t =>
    simp only [Taken] at h₂
    exact within_bind ((ih.moreArguments (count + 1) c₂ (by omega)).mono (fun _ _ h => h)
      (by omega)) fun args c₃ h₃ => within_pure (by omega)
  | none => exact within_pure (by simp only [Taken] at h₂; omega)

theorem ExpressionsWithin.primary_succ (c : Cursor) (hn : 20 * c.rest.length + 1 ≤ n + 1) :
    Within (Grammar.primary (n + 1)) c (fun _ k => k < c.rest.length) c.rest.length := by
  unfold Grammar.primary
  refine within_bind (within_acceptMap start?) fun o c₁ h₁ => ?_
  cases o with
  | none => exact within_refuse _ (Nat.le_of_eq h₁)
  | some p =>
    obtain ⟨start, token⟩ := p
    simp only [Taken] at h₁
    cases start with
    | constant | name | thisWord => exact within_pure h₁
    | superWord =>
      refine within_bind (within_expect .dot _ (by omega)) fun dot c₂ h₂ => ?_
      refine within_bind (within_expect .identifier _ (by omega)) fun method c₃ h₃ => ?_
      exact within_pure (by omega)
    | paren =>
      refine within_bind ((ih.expression c₁ (by omega)).mono (fun _ _ h => h) (by omega))
        fun inner c₂ h₂ => ?_
      refine within_bind (within_expect .rightParen _ (by omega)) fun close c₃ h₃ => ?_
      exact within_pure (by omega)

end

theorem expressionsWithin : ∀ n, ExpressionsWithin n
  | 0 =>
    { expression := fun c h => by omega
      operand := fun level c h => by have := level.le_cost; omega
      tighter := fun level c h => by have := level.le_cost; omega
      joined := fun level left c h => by omega
      unary := fun c h => by omega
      suffixes := fun head c h => by omega
      arguments := fun c h => by omega
      moreArguments := fun count c h => by omega
      primary := fun c h => by omega }
  | n + 1 =>
    have ih := expressionsWithin n
    { expression := ih.expression_succ
      operand := ih.operand_succ
      tighter := ih.tighter_succ
      joined := ih.joined_succ
      unary := ih.unary_succ
      suffixes := ih.suffixes_succ
      arguments := ih.arguments_succ
      moreArguments := ih.moreArguments_succ
      primary := ih.primary_succ }

theorem within_expression {n : Nat} {c : Cursor} {N : Nat} (hn : 20 * c.rest.length + 15 ≤ n)
    (hN : c.rest.length ≤ N) : Within (expression n) c (fun _ k => k < c.rest.length) N :=
  ((expressionsWithin n).expression c hn).mono (fun _ _ h => h) hN

/-! ## Statements without statements inside -/

section
variable {n N : Nat} {c : Cursor} (hN : c.rest.length ≤ N)
include hN

theorem within_varDecl (hn : 20 * c.rest.length ≤ n) :
    Within (varDecl n) c (fun _ k => k < c.rest.length) N := by
  unfold varDecl
  refine within_bind (within_expect .identifier _ hN) fun name c₁ h₁ => ?_
  refine within_bind (within_accept .equal) fun o c₂ h₂ => ?_
  cases o with
  | some eq =>
    simp only [Taken] at h₂
    refine within_bind (within_map (within_expression (by omega) (by omega))) fun init c₃ h₃ => ?_
    obtain ⟨-, h₃⟩ := h₃
    refine within_bind (within_expect .semicolon _ (by omega)) fun semi c₄ h₄ => ?_
    exact within_pure (by omega)
  | none =>
    simp only [Taken] at h₂
    refine within_bind (within_pure (Q := fun _ k => k = c₂.rest.length) rfl) fun init c₃ h₃ => ?_
    refine within_bind (within_expect .semicolon _ (by omega)) fun semi c₄ h₄ => ?_
    exact within_pure (by omega)

theorem within_expressionStmt (hn : 20 * c.rest.length + 15 ≤ n) :
    Within (expressionStmt n) c (fun _ k => k < c.rest.length) N := by
  unfold expressionStmt
  refine within_bind (within_expression hn hN) fun e c₁ h₁ => ?_
  refine within_bind (within_expect .semicolon _ (by omega)) fun semi c₂ h₂ => ?_
  exact within_pure (by omega)

theorem within_printStmt (hn : 20 * c.rest.length + 15 ≤ n) :
    Within (printStmt n) c (fun _ k => k < c.rest.length) N := by
  unfold printStmt
  refine within_bind (within_expression hn hN) fun e c₁ h₁ => ?_
  refine within_bind (within_expect .semicolon _ (by omega)) fun semi c₂ h₂ => ?_
  exact within_pure (by omega)

theorem within_optionalExpression (stop : TokenKind) (hn : 20 * c.rest.length + 15 ≤ n) :
    Within (optionalExpression n stop) c (fun _ k => k ≤ c.rest.length) N := by
  unfold optionalExpression
  refine within_bind (within_check stop) fun b c₁ h₁ => ?_
  cases b with
  | true => exact within_pure (Nat.le_of_eq h₁)
  | false =>
    refine (within_map (within_expression (by omega) (by omega))).mono (fun _ _ h => ?_)
      (Nat.le_refl N)
    obtain ⟨-, h⟩ := h
    omega

theorem within_returnStmt (keyword : Token) (hn : 20 * c.rest.length + 15 ≤ n) :
    Within (returnStmt n keyword) c (fun _ k => k < c.rest.length) N := by
  unfold returnStmt
  refine within_bind (within_optionalExpression hN .semicolon hn) fun value c₁ h₁ => ?_
  refine within_bind (within_expect .semicolon _ (by omega)) fun semi c₂ h₂ => ?_
  exact within_pure (by omega)

theorem within_forInit (hn : 20 * c.rest.length + 15 ≤ n) :
    Within (forInit n) c (fun _ k => k < c.rest.length) N := by
  unfold forInit
  refine within_bind (within_accept .semicolon) fun o c₁ h₁ => ?_
  cases o with
  | some semi => exact within_pure h₁
  | none =>
    simp only [Taken] at h₁
    refine within_bind (within_accept .kwVar) fun o c₂ h₂ => ?_
    cases o with
    | some t =>
      simp only [Taken] at h₂
      refine (within_map (within_varDecl (by omega) (by omega))).mono (fun _ _ h => ?_)
        (Nat.le_refl N)
      obtain ⟨-, h⟩ := h
      omega
    | none =>
      simp only [Taken] at h₂
      refine (within_map (within_expressionStmt (by omega) (by omega))).mono (fun _ _ h => ?_)
        (Nat.le_refl N)
      obtain ⟨-, h⟩ := h
      omega

theorem within_testInParens (start stop : Expected) (hn : 20 * c.rest.length ≤ n) :
    Within (testInParens n start stop) c (fun _ k => k < c.rest.length) N := by
  unfold testInParens
  refine within_bind (within_expect .leftParen start hN) fun t c₁ h₁ => ?_
  refine within_bind (within_expression (by omega) (by omega)) fun e c₂ h₂ => ?_
  refine within_bind (within_expect .rightParen stop (by omega)) fun close c₃ h₃ => ?_
  exact within_pure (by omega)

end

theorem within_moreParameters : ∀ {n count N : Nat} {c : Cursor}, c.rest.length ≤ N →
    20 * c.rest.length + 1 ≤ n →
    Within (moreParameters n count) c (fun _ k => k ≤ c.rest.length) N
  | 0, _, _, _, _, hn => by omega
  | n + 1, count, N, c, hN, hn => by
    unfold moreParameters
    refine within_warn fun c' hc => ?_
    refine within_bind (within_expect .identifier _ (by omega)) fun param c₁ h₁ => ?_
    refine within_bind (within_accept .comma) fun o c₂ h₂ => ?_
    cases o with
    | some t =>
      simp only [Taken] at h₂
      exact within_bind (within_moreParameters (by omega) (by omega)) fun params c₃ h₃ =>
        within_pure (by omega)
    | none => exact within_pure (by simp only [Taken] at h₂; omega)

theorem within_parameters {n N : Nat} {c : Cursor} (hN : c.rest.length ≤ N)
    (hn : 20 * c.rest.length + 1 ≤ n) :
    Within (parameters n) c (fun _ k => k ≤ c.rest.length) N := by
  unfold parameters
  refine within_bind (within_check .rightParen) fun b c₁ h₁ => ?_
  cases b with
  | true => exact within_pure (Nat.le_of_eq h₁)
  | false =>
    exact (within_moreParameters (by omega) (by omega)).mono (fun _ _ h => by omega) (Nat.le_refl N)

/-! ## Recovery -/

theorem length_skipPast : ∀ (last : Token) (ts : List Token), (skipPast last ts).length ≤ ts.length
  | _, [] => Nat.le_refl 0
  | last, t :: ts => by
    unfold skipPast
    have := length_skipPast t ts
    split
    · exact Nat.le_refl _
    · split
      · exact Nat.le_refl _
      · simp only [List.length_cons]
        omega

theorem length_synchronize {ts : List Token} {N : Nat} (hts : ts.length ≤ N) (hN : 0 < N) :
    (synchronize ts).length < N := by
  cases ts with
  | nil => exact hN
  | cons t ts =>
    have := length_skipPast t ts
    simp only [List.length_cons] at hts
    change (skipPast t ts).length < N
    omega

/-- A recovery point is never refused, and moves on if there is something to move past. -/
theorem ends_recover {α : Type} {x : Parser α} {c : Cursor} {N : Nat}
    (hx : Within x c (fun _ k => k < N) N) :
    Ends (recover x) c (fun _ c' => 0 < N → c'.rest.length < N) (fun _ _ => False) := by
  cases h : x c with
  | ok a c' =>
    have hlt : c'.rest.length < N := Ends.ok (x := x) hx h
    exact ends_of_ok (a := some a) (t := c') (by simp only [recover, h]) fun _ => hlt
  | error i c' =>
    obtain ⟨rfl, hle⟩ := Ends.error hx h
    exact ends_of_ok (a := none) (t := { c' with rest := synchronize c'.rest })
      (by simp only [recover, h]) (length_synchronize hle)

/-! ## Statements and declarations -/

/-- With the depth `n` the parsers of statements do not use it up, and move on. -/
structure StatementsWithin (n : Nat) : Prop where
  declaration : ∀ c, 20 * c.rest.length + 17 ≤ n → Ends (declaration n) c
    (fun _ c' => 0 < c.rest.length → c'.rest.length < c.rest.length) (fun _ _ => False)
  classDecl : ∀ {c N}, c.rest.length ≤ N → 20 * c.rest.length + 1 ≤ n →
    Within (classDecl n) c (fun _ k => k ≤ c.rest.length) N
  methods : ∀ {c N}, c.rest.length ≤ N → 20 * c.rest.length + 2 ≤ n →
    Within (methods n) c (fun _ k => k ≤ c.rest.length) N
  function : ∀ {routine c N}, c.rest.length ≤ N → 20 * c.rest.length + 1 ≤ n →
    Within (function n routine) c (fun _ k => k < c.rest.length) N
  block : ∀ {c N}, c.rest.length ≤ N → 20 * c.rest.length + 18 ≤ n →
    Within (block n) c (fun _ k => k ≤ c.rest.length) N
  statement : ∀ {c N}, c.rest.length ≤ N → 20 * c.rest.length + 16 ≤ n →
    Within (statement n) c (fun _ k => k < c.rest.length) N
  forStmt : ∀ {c N}, c.rest.length ≤ N → 20 * c.rest.length + 1 ≤ n →
    Within (forStmt n) c (fun _ k => k ≤ c.rest.length) N
  ifStmt : ∀ {c N}, c.rest.length ≤ N → 20 * c.rest.length + 1 ≤ n →
    Within (ifStmt n) c (fun _ k => k ≤ c.rest.length) N

section
variable {n : Nat} (ih : StatementsWithin n)
include ih

theorem StatementsWithin.declaration_succ (c : Cursor) (hn : 20 * c.rest.length + 17 ≤ n + 1) :
    Ends (Grammar.declaration (n + 1)) c
      (fun _ c' => 0 < c.rest.length → c'.rest.length < c.rest.length) (fun _ _ => False) := by
  unfold Grammar.declaration
  refine ends_recover (within_bind (within_acceptMap declarationForm?) fun o c₁ h₁ => ?_)
  cases o with
  | none =>
    simp only [Taken] at h₁
    exact (ih.statement (by omega) (by omega)).mono (fun _ _ h => by omega) (Nat.le_refl _)
  | some p =>
    obtain ⟨form, t⟩ := p
    simp only [Taken] at h₁
    cases form with
    | classForm =>
      exact (ih.classDecl (by omega) (by omega)).mono (fun _ _ h => by omega) (Nat.le_refl _)
    | funForm =>
      refine (within_map (ih.function (by omega) (by omega))).mono (fun _ _ h => ?_) (Nat.le_refl _)
      obtain ⟨-, h⟩ := h
      omega
    | _ => exact (within_varDecl (by omega) (by omega)).mono (fun _ _ h => by omega) (Nat.le_refl _)

theorem StatementsWithin.classDecl_succ {c : Cursor} {N : Nat} (hN : c.rest.length ≤ N)
    (hn : 20 * c.rest.length + 1 ≤ n + 1) :
    Within (Grammar.classDecl (n + 1)) c (fun _ k => k ≤ c.rest.length) N := by
  have body : ∀ (c' : Cursor) (name : Token) (superclass : Option Reference),
      c'.rest.length < c.rest.length →
      Within (do
        let _ ← expect .leftBrace .classBody
        let methods ← Grammar.methods n
        let _ ← expect .rightBrace .classEnd
        pure (Stmt.classDecl name superclass methods)) c' (fun _ k => k ≤ c.rest.length) N := by
    intro c' name superclass hc
    refine within_bind (within_expect .leftBrace _ (by omega)) fun openBrace c₁ h₁ => ?_
    refine within_bind (ih.methods (by omega) (by omega)) fun methods c₂ h₂ => ?_
    refine within_bind (within_expect .rightBrace _ (by omega)) fun close c₃ h₃ => ?_
    exact within_pure (by omega)
  unfold Grammar.classDecl
  refine within_bind (within_expect .identifier _ hN) fun name c₁ h₁ => ?_
  refine within_bind (within_accept .less) fun o c₂ h₂ => ?_
  cases o with
  | some less =>
    simp only [Taken] at h₂
    refine within_bind (within_map (within_expect .identifier _ (by omega)))
      fun superclass c₃ h₃ => ?_
    obtain ⟨-, h₃⟩ := h₃
    exact body c₃ name superclass (by omega)
  | none =>
    simp only [Taken] at h₂
    exact within_bind (within_pure (Q := fun _ k => k = c₂.rest.length) rfl)
      fun superclass c₃ h₃ => body c₃ name superclass (by omega)

theorem StatementsWithin.methods_succ {c : Cursor} {N : Nat} (hN : c.rest.length ≤ N)
    (hn : 20 * c.rest.length + 2 ≤ n + 1) :
    Within (Grammar.methods (n + 1)) c (fun _ k => k ≤ c.rest.length) N := by
  unfold Grammar.methods
  refine within_bind (within_check .rightBrace) fun closes c₁ h₁ => ?_
  refine within_bind within_atEnd fun ends c₂ h₂ => ?_
  split
  · exact within_pure (by omega)
  · refine within_bind (ih.function (by omega) (by omega)) fun d c₃ h₃ => ?_
    refine within_bind (ih.methods (by omega) (by omega)) fun ds c₄ h₄ => ?_
    exact within_pure (by omega)

theorem StatementsWithin.function_succ {routine : Routine} {c : Cursor} {N : Nat}
    (hN : c.rest.length ≤ N) (hn : 20 * c.rest.length + 1 ≤ n + 1) :
    Within (Grammar.function (n + 1) routine) c (fun _ k => k < c.rest.length) N := by
  unfold Grammar.function
  refine within_bind (within_expect .identifier _ hN) fun name c₁ h₁ => ?_
  refine within_bind (within_expect .leftParen _ (by omega)) fun openParen c₂ h₂ => ?_
  refine within_bind (within_parameters (by omega) (by omega)) fun params c₃ h₃ => ?_
  refine within_bind (within_expect .rightParen _ (by omega)) fun close c₄ h₄ => ?_
  refine within_bind (within_expect .leftBrace _ (by omega)) fun openBrace c₅ h₅ => ?_
  refine within_bind (ih.block (by omega) (by omega)) fun body c₆ h₆ => ?_
  exact within_pure (by omega)

theorem StatementsWithin.block_succ {c : Cursor} {N : Nat} (hN : c.rest.length ≤ N)
    (hn : 20 * c.rest.length + 18 ≤ n + 1) :
    Within (Grammar.block (n + 1)) c (fun _ k => k ≤ c.rest.length) N := by
  unfold Grammar.block
  refine within_bind (within_check .rightBrace) fun closes c₁ h₁ => ?_
  refine within_bind within_atEnd fun ends c₂ h₂ => ?_
  split
  · refine within_bind (within_expect .rightBrace _ (by omega)) fun close c₃ h₃ => ?_
    exact within_pure (by omega)
  · rename_i hb
    simp only [Bool.or_eq_true, not_or, Bool.not_eq_true] at hb
    have hpos := h₂.2 hb.2
    have hd := ih.declaration c₂ (by omega)
    refine within_bind (Q := fun _ k => k < c₂.rest.length)
      (Ends.mono hd (fun _ _ _ h => h (by omega)) fun _ _ h => h.elim) fun first c₃ h₃ => ?_
    refine within_bind (ih.block (by omega) (by omega)) fun body c₄ h₄ => ?_
    exact within_pure (by omega)

theorem StatementsWithin.statement_succ {c : Cursor} {N : Nat} (hN : c.rest.length ≤ N)
    (hn : 20 * c.rest.length + 16 ≤ n + 1) :
    Within (Grammar.statement (n + 1)) c (fun _ k => k < c.rest.length) N := by
  unfold Grammar.statement
  refine within_bind (within_acceptMap statementForm?) fun o c₁ h₁ => ?_
  cases o with
  | none =>
    simp only [Taken] at h₁
    exact (within_expressionStmt (by omega) (by omega)).mono (fun _ _ h => by omega) (Nat.le_refl N)
  | some p =>
    obtain ⟨form, t⟩ := p
    simp only [Taken] at h₁
    cases form with
    | forForm =>
      exact (ih.forStmt (by omega) (by omega)).mono (fun _ _ h => by omega) (Nat.le_refl N)
    | ifForm =>
      exact (ih.ifStmt (by omega) (by omega)).mono (fun _ _ h => by omega) (Nat.le_refl N)
    | printForm =>
      exact (within_printStmt (by omega) (by omega)).mono (fun _ _ h => by omega) (Nat.le_refl N)
    | returnForm =>
      exact (within_returnStmt (by omega) t (by omega)).mono (fun _ _ h => by omega) (Nat.le_refl N)
    | whileForm =>
      refine within_bind (within_testInParens (by omega) _ _ (by omega)) fun test c₂ h₂ => ?_
      refine within_bind (ih.statement (by omega) (by omega)) fun body c₃ h₃ => ?_
      exact within_pure (by omega)
    | _ =>
      refine (within_map (ih.block (by omega) (by omega))).mono (fun _ _ h => ?_) (Nat.le_refl N)
      obtain ⟨-, h⟩ := h
      omega

theorem StatementsWithin.forStmt_succ {c : Cursor} {N : Nat} (hN : c.rest.length ≤ N)
    (hn : 20 * c.rest.length + 1 ≤ n + 1) :
    Within (Grammar.forStmt (n + 1)) c (fun _ k => k ≤ c.rest.length) N := by
  unfold Grammar.forStmt
  refine within_bind (within_expect .leftParen _ hN) fun openParen c₁ h₁ => ?_
  refine within_bind (within_forInit (by omega) (by omega)) fun init c₂ h₂ => ?_
  refine within_bind (within_optionalExpression (by omega) _ (by omega)) fun test c₃ h₃ => ?_
  refine within_bind (within_expect .semicolon _ (by omega)) fun semi c₄ h₄ => ?_
  refine within_bind (within_optionalExpression (by omega) _ (by omega)) fun update c₅ h₅ => ?_
  refine within_bind (within_expect .rightParen _ (by omega)) fun close c₆ h₆ => ?_
  refine within_bind (ih.statement (by omega) (by omega)) fun body c₇ h₇ => ?_
  exact within_pure (by omega)

theorem StatementsWithin.ifStmt_succ {c : Cursor} {N : Nat} (hN : c.rest.length ≤ N)
    (hn : 20 * c.rest.length + 1 ≤ n + 1) :
    Within (Grammar.ifStmt (n + 1)) c (fun _ k => k ≤ c.rest.length) N := by
  unfold Grammar.ifStmt
  refine within_bind (within_testInParens hN _ _ (by omega)) fun test c₁ h₁ => ?_
  refine within_bind (ih.statement (by omega) (by omega)) fun yes c₂ h₂ => ?_
  refine within_bind (within_accept .kwElse) fun o c₃ h₃ => ?_
  cases o with
  | some kw =>
    simp only [Taken] at h₃
    refine within_bind (ih.statement (by omega) (by omega)) fun no c₄ h₄ => ?_
    exact within_pure (by omega)
  | none => exact within_pure (by simp only [Taken] at h₃; omega)

end

theorem statementsWithin : ∀ n, StatementsWithin n
  | 0 =>
    { declaration := fun c h => by omega
      classDecl := fun _ h => by omega
      methods := fun _ h => by omega
      function := fun _ h => by omega
      block := fun _ h => by omega
      statement := fun _ h => by omega
      forStmt := fun _ h => by omega
      ifStmt := fun _ h => by omega }
  | n + 1 =>
    have ih := statementsWithin n
    { declaration := ih.declaration_succ
      classDecl := ih.classDecl_succ
      methods := ih.methods_succ
      function := ih.function_succ
      block := ih.block_succ
      statement := ih.statement_succ
      forStmt := ih.forStmt_succ
      ifStmt := ih.ifStmt_succ }

/-- Declarations are read up to the end, whatever the tokens. -/
theorem declarations_ends : ∀ {n : Nat} {c : Cursor}, 20 * c.rest.length + 18 ≤ n →
    Ends (declarations n) c (fun _ c' => c'.rest = []) (fun _ _ => False)
  | 0, c, hn => by omega
  | n + 1, c, hn => by
    unfold declarations
    refine ends_bind (ends_of_ok rfl fun _ => ?_)
    cases hr : c.rest with
    | nil => exact ends_pure hr
    | cons t ts =>
      have hlen : c.rest.length = ts.length + 1 := by rw [hr]; rfl
      refine ends_bind (((statementsWithin n).declaration c (by omega)).mono
        (fun first c₁ _ h₁ _ => ?_) fun _ _ h => h)
      have h₁ := h₁ (by omega)
      refine ends_bind ((declarations_ends (by omega)).mono (fun rest c₂ _ h₂ _ => ?_)
        fun _ _ h => h)
      exact ends_pure h₂

/-- **Parsing reads every list of tokens to its end.** -/
theorem declarations_depthFor (ts : List Token) (eof : Token) :
    ∃ stmts c, declarations (depthFor ts) ⟨ts, eof, []⟩ = .ok stmts c ∧ c.rest = [] := by
  have h := declarations_ends (n := depthFor ts) (c := ⟨ts, eof, []⟩)
    (by simp only [depthFor]; omega)
  cases hd : declarations (depthFor ts) ⟨ts, eof, []⟩ with
  | ok stmts c => exact ⟨stmts, c, rfl, h.ok hd⟩
  | error i c => exact (h.error hd).elim

/-- A list of tokens that is parsed without a fault is a phrase of the grammar. -/
theorem reads_of_parse {ts : List Token} {eof : Token} (h : (parse ts eof).diagnostics = []) :
    Reads (.declarations (parse ts eof).statements) ts [] := by
  obtain ⟨stmts, c, hd, hc⟩ := declarations_depthFor ts eof
  have hp : parse ts eof = ⟨stmts, c.diagnostics⟩ := by simp only [parse, hd]
  rw [hp] at h ⊢
  have hr := Ends.ok (reading_declarations (depthFor ts) ⟨ts, eof, []⟩) hd
  have hclean : Cursor.Clean ⟨ts, eof, []⟩ c := by
    simp only [Cursor.Clean, show c.diagnostics = [] from h]
  obtain ⟨he, hreads⟩ := hr.2 hclean
  rwa [he] at hreads

end Lox.Grammar

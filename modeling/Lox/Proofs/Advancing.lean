import Lox.Proofs.Making

/-!
# Parsing moves on

Whatever the tokens, every parser goes forwards, reads nothing but the tokens and the mark of the
end, and comes to an end of its own if its depth is in proportion to the tokens left (`Advances`). A
declaration that does not begin at the end takes at least one token, whether it is read or refused,
and so do the other parsers whose loops depend on it.

Main statement: `Grammar.parse_advances`.
-/

namespace Lox.Grammar

section
variable {α : Type} {T : Token → Prop} {c c' : Cursor} {n N : Nat}

theorem Cursor.amid_self (h : c'.eof = c.eof) : c'.amid [] [] c.eof = c' := by
  rw [← h]
  simp only [Cursor.amid, List.append_nil, List.nil_append]

/-- With more depth a parser does the same, unless it has used up the depth it had. -/
theorem Makes.more {x x' : Parser α} {P : α → Prop} (hx : Makes T P x x') (hc : ∀ t ∈ c.rest, T t)
    (h : ∀ c', x c ≠ .error .outOfFuel c') : x' c = x c := by
  cases hrun : x c with
  | ok a c₁ =>
    obtain ⟨hl, -, hsame⟩ := (hx c hc).ok hrun
    have hrun' := hsame [] [] c.eof (.inr ⟨rfl, hl.eof.symm⟩)
    rwa [Cursor.amid_self rfl, Cursor.amid_self hl.eof] at hrun'
  | error i c₁ =>
    obtain ⟨hl, hsame⟩ := (hx c hc).error hrun
    cases i with
    | refused =>
      have hrun' := hsame rfl [] [] c.eof (.inr ⟨rfl, hl.eof.symm⟩)
      rwa [Cursor.amid_self rfl, Cursor.amid_self hl.eof] at hrun'
    | outOfFuel => exact absurd hrun (h c₁)

/-- Two depths that are not used up give the same. -/
theorem eq_of_enough {x : Nat → Parser α} {P : α → Prop}
    (hx : ∀ n n', n ≤ n' → Makes T P (x n) (x n')) (hc : ∀ t ∈ c.rest, T t)
    (hn : ∀ c', x n c ≠ .error .outOfFuel c') (hN : ∀ c', x N c ≠ .error .outOfFuel c') :
    x n c = x N c :=
  ((hx n _ (Nat.le_max_left n N)).more hc hn).symm.trans
    ((hx N _ (Nat.le_max_right n N)).more hc hN)

/-- What holds with enough depth holds with any depth that is not used up. -/
theorem ends_of_enough {x : Nat → Parser α} {P : α → Prop} {Q : α → Cursor → Prop}
    {E : Cursor → Prop} (hc : ∀ t ∈ c.rest, T t) (hx : ∀ n n', n ≤ n' → Makes T P (x n) (x n'))
    (hN : ∀ n', N ≤ n' → Ends (x n') c Q fun i c' => i = .refused ∧ E c') :
    Ends (x n) c (fun a c' => c.Leads T c' ∧ Q a c')
      fun i c' => c.Leads T c' ∧ (i = .refused → E c') ∧ (i = .outOfFuel → n < N) := by
  have hmake := hx n _ (Nat.le_max_left n N)
  have hmore := hN _ (Nat.le_max_right n N)
  cases h : x n c with
  | ok a c₁ =>
    have hrun := (hmake.more hc fun c' he => by rw [h] at he; cases he).trans h
    exact ends_of_ok h ⟨((hmake c hc).ok h).1, hmore.ok hrun⟩
  | error i c₁ =>
    refine ends_of_error h ⟨((hmake c hc).error h).1, ?_, fun hi => Nat.not_le.1 fun hle => ?_⟩
    · rintro rfl
      have hrun := (hmake.more hc fun c' he => by rw [h] at he; cases he).trans h
      exact (hmore.error hrun).2
    · rw [Nat.max_eq_left hle] at hmore
      exact absurd (hi.symm.trans (hmore.error h).1) (by decide)

/-- Where the tokens are from `T`, the parser goes forwards with any depth, also where it gives up,
and takes at least `least` tokens where it does not. It uses up no depth of twenty for each token
left and the cost. -/
def Advances (T : Token → Prop) (x : Nat → Parser α) (least cost : Nat) : Prop :=
  ∀ c n, (∀ t ∈ c.rest, T t) → Ends (x n) c
    (fun _ c' => c.Leads T c' ∧ c'.rest.length + least ≤ c.rest.length)
    (fun i c' => c.Leads T c' ∧ (i = .outOfFuel → n < 20 * c.rest.length + cost))

theorem advances {x : Nat → Parser α} {least cost : Nat} {P : α → Prop}
    (hx : ∀ n n', n ≤ n' → Makes T P (x n) (x n'))
    (hw : ∀ c n, 20 * c.rest.length + cost ≤ n →
      Within (x n) c (fun _ k => k + least ≤ c.rest.length) c.rest.length) :
    Advances T x least cost := fun c _ hc =>
  (ends_of_enough hc hx (hw c)).mono (fun _ _ _ hq => hq) fun _ _ he => ⟨he.1, he.2.2⟩

end

/-! ## All parsers -/

/-- The parsers of expressions advance. Two of them go on from an expression that has been made. -/
structure ExpressionsAdvance (T : Token → Prop) : Prop where
  expression : Advances T expression 1 15
  operand : ∀ level : Level, Advances T (operand · level) 1 level.cost
  tighter : ∀ level : Level, Advances T (tighter · level) 1 level.cost
  joined : ∀ level {left}, left.Made T → Advances T (joined · level left) 0 1
  unary : Advances T unary 1 2
  suffixes : ∀ {head}, head.Made T → Advances T (suffixes · head) 0 1
  arguments : Advances T arguments 0 17
  moreArguments : ∀ count, Advances T (moreArguments · count) 0 16
  primary : Advances T primary 1 1

/-- The parsers of statements advance. A declaration is never refused, and takes a token unless it
begins at the end. -/
structure StatementsAdvance (T : Token → Prop) : Prop where
  declaration : ∀ c n, (∀ t ∈ c.rest, T t) → Ends (declaration n) c
    (fun _ c' => c.Leads T c' ∧ (c.rest ≠ [] → c'.rest.length < c.rest.length))
    (fun i c' => c.Leads T c' ∧ i = .outOfFuel ∧ n < 20 * c.rest.length + 17)
  classDecl : Advances T classDecl 0 1
  methods : Advances T methods 0 2
  function : ∀ routine, Advances T (function · routine) 1 1
  block : Advances T block 0 18
  statement : Advances T statement 1 16
  forStmt : Advances T forStmt 0 1
  ifStmt : Advances T ifStmt 0 1

section
variable (T : Token → Prop)

theorem expressionsAdvance : ExpressionsAdvance T where
  expression := advances (fun _ _ h => (makesExpressions T h).expression)
    fun c n => (expressionsWithin n).expression c
  operand level := advances (fun _ _ h => (makesExpressions T h).operand level)
    fun c n => (expressionsWithin n).operand level c
  tighter level := advances (fun _ _ h => (makesExpressions T h).tighter level)
    fun c n hn => (expressionsWithin n).tighter level c (Nat.le_succ_of_le hn)
  joined level left hl := advances (fun _ _ h => (makesExpressions T h).joined level hl)
    fun c n => (expressionsWithin n).joined level left c
  unary := advances (fun _ _ h => (makesExpressions T h).unary)
    fun c n => (expressionsWithin n).unary c
  suffixes {head} hh := advances (fun _ _ h => (makesExpressions T h).suffixes hh)
    fun c n => (expressionsWithin n).suffixes head c
  arguments := advances (fun _ _ h => (makesExpressions T h).arguments)
    fun c n => (expressionsWithin n).arguments c
  moreArguments count := advances (fun _ _ h => (makesExpressions T h).moreArguments count)
    fun c n => (expressionsWithin n).moreArguments count c
  primary := advances (fun _ _ h => (makesExpressions T h).primary)
    fun c n => (expressionsWithin n).primary c

theorem declaration_advances (c : Cursor) (n : Nat) (hc : ∀ t ∈ c.rest, T t) :
    Ends (declaration n) c
      (fun _ c' => c.Leads T c' ∧ (c.rest ≠ [] → c'.rest.length < c.rest.length))
      (fun i c' => c.Leads T c' ∧ i = .outOfFuel ∧ n < 20 * c.rest.length + 17) := by
  have henough : ∀ n', 20 * c.rest.length + 17 ≤ n' → Ends (declaration n') c
      (fun _ c' => 0 < c.rest.length → c'.rest.length < c.rest.length)
      (fun i _ => i = .refused ∧ False) := fun n' hn' =>
    ((statementsWithin n').declaration c hn').mono (fun _ _ _ hq => hq) fun _ _ he => he.elim
  refine (ends_of_enough hc (fun _ _ h => (makesStatements T h).declaration) henough).mono
    (fun o c' _ h => ⟨h.1, fun hne => h.2 (List.length_pos_iff.2 hne)⟩) fun i c' h => ?_
  cases i with
  | refused => exact (h.2.1 rfl).elim
  | outOfFuel => exact ⟨h.1, rfl, h.2.2 rfl⟩

theorem statementsAdvance : StatementsAdvance T where
  declaration := declaration_advances T
  classDecl := advances (fun _ _ h => (makesStatements T h).classDecl)
    fun _ n => (statementsWithin n).classDecl (Nat.le_refl _)
  methods := advances (fun _ _ h => (makesStatements T h).methods)
    fun _ n => (statementsWithin n).methods (Nat.le_refl _)
  function routine := advances (fun _ _ h => (makesStatements T h).function routine)
    fun _ n => (statementsWithin n).function (Nat.le_refl _)
  block := advances (fun _ _ h => (makesStatements T h).block)
    fun _ n => (statementsWithin n).block (Nat.le_refl _)
  statement := advances (fun _ _ h => (makesStatements T h).statement)
    fun _ n => (statementsWithin n).statement (Nat.le_refl _)
  forStmt := advances (fun _ _ h => (makesStatements T h).forStmt)
    fun _ n => (statementsWithin n).forStmt (Nat.le_refl _)
  ifStmt := advances (fun _ _ h => (makesStatements T h).ifStmt)
    fun _ n => (statementsWithin n).ifStmt (Nat.le_refl _)

end

/-! ## Whole programs -/

/-- Where parsing ends, with any depth from `depthFor` on: all tokens are read, the statements are
complete, and every report is about a token or about the end. -/
theorem parse_ends (ts : List Token) (eof : Token) :
    ∃ c, (∀ n ≥ depthFor ts, declarations n ⟨ts, eof, []⟩ = .ok (parse ts eof).statements c) ∧
      c.rest = [] ∧ c.eof = eof ∧ c.diagnostics = (parse ts eof).diagnostics ∧
      Stmt.MadeAll (· ∈ ts) (parse ts eof).statements ∧
      ∀ d ∈ (parse ts eof).diagnostics, ∃ t cause, (t ∈ ts ∨ t = eof) ∧ d = .ofToken t cause := by
  obtain ⟨stmts, c, hd, hrest⟩ := declarations_depthFor ts eof
  have hp : parse ts eof = ⟨stmts, c.diagnostics⟩ := by simp only [parse, hd]
  have hmake : ∀ n ≥ depthFor ts, _ := fun n hn =>
    Ends.ok (makes_declarations (· ∈ ts) hn ⟨ts, eof, []⟩ fun _ ht => ht) hd
  obtain ⟨hl, hmade, -⟩ := hmake _ (Nat.le_refl _)
  obtain ⟨ds, hds, hat⟩ := hl.reports
  rw [hp]
  refine ⟨c, fun n hn => ?_, hrest, hl.eof, rfl, hmade, fun d hd' => hat d ?_⟩
  · have hrun := (hmake n hn).2.2 [] [] eof (.inr ⟨rfl, hl.eof.symm⟩)
    rwa [Cursor.amid_self rfl, Cursor.amid_self hl.eof] at hrun
  · rwa [hds] at hd'

/-- **Parsing moves on and comes to an end.** Every list of tokens is read to its end, and more
depth than `depthFor` gives the same. On the way each parser goes forwards and ends with a depth in
proportion to the tokens left, which makes the recursion of the grammar well-founded; each
declaration that does not begin at the end takes a token, whether it is read or refused. The
statements have all their parts. -/
theorem parse_advances (ts : List Token) (eof : Token) :
    (∃ c, c.rest = [] ∧ c.eof = eof ∧ c.diagnostics = (parse ts eof).diagnostics ∧
      ∀ n ≥ depthFor ts, declarations n ⟨ts, eof, []⟩ = .ok (parse ts eof).statements c) ∧
    ExpressionsAdvance (· ∈ ts) ∧ StatementsAdvance (· ∈ ts) ∧
    Stmt.MadeAll (· ∈ ts) (parse ts eof).statements := by
  obtain ⟨c, hruns, hrest, heof, hds, hmade, -⟩ := parse_ends ts eof
  exact ⟨⟨c, hrest, heof, hds, hruns⟩, expressionsAdvance _, statementsAdvance _, hmade⟩

end Lox.Grammar

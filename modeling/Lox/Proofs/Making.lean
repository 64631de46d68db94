import Lox.Proofs.Taking

/-!
# What the parser makes, and what it depends on

`Makes T P x x'` says three things of a parser `x` that finds tokens of `T`: it leaves an end of the
tokens and reports faults at tokens it found, or at the end; what it returns is in `P`; and it has
seen nothing else than the tokens it took and the next one, so `x'`, which is the same parser with
more depth, does the same among other tokens and reports (`Cursor.amid`), unless the last of the
tokens is gone and the next one would be another (`Cursor.Settled`).

The trees made are complete (`Stmt.Made`): every node has tokens that were found, of the kinds that
the node asks for.
-/

namespace Lox

/-! ## Complete trees -/

section
variable (T : Token → Prop)

/-- A token of `T`, of the kind. -/
def Token.From (kind : TokenKind) (t : Token) : Prop := T t ∧ t.kind = kind

/-- A constant that a token of `T` spells, or the test of a loop that has none. -/
def Constant.Made (c : Constant) : Prop := (∃ t, T t ∧ t.constant? = some c) ∨ c = .bool true

/-- A token of `T` that stands for an operator between operands. -/
def Grammar.Joint.From (joint : Grammar.Joint) (t : Token) : Prop :=
  T t ∧ ∃ level : Grammar.Level, level.joint? t.kind = some joint

mutual

/-- Every token in the expression is from `T` and of the kind its node asks for. -/
def Expr.Made : Expr → Prop
  | .literal c => c.Made T
  | .group inner => inner.Made
  | .unary op token right => (T token ∧ Grammar.unaryOp? token.kind = some op) ∧ right.Made
  | .binary op token left right =>
    (Grammar.Joint.binary op).From T token ∧ left.Made ∧ right.Made
  | .logical op token left right =>
    (Grammar.Joint.logical op).From T token ∧ left.Made ∧ right.Made
  | .name ref => ref.token.From T .identifier
  | .assign ref value => ref.token.From T .identifier ∧ value.Made
  | .call callee paren args => callee.Made ∧ paren.From T .rightParen ∧ Expr.MadeAll args
  | .get object property => object.Made ∧ property.From T .identifier
  | .set object property value => object.Made ∧ property.From T .identifier ∧ value.Made
  | .thisRef ref => ref.token.From T .kwThis
  | .superRef ref method => ref.token.From T .kwSuper ∧ method.From T .identifier

def Expr.MadeAll : List Expr → Prop
  | [] => True
  | e :: es => e.Made ∧ Expr.MadeAll es

end

mutual

/-- Every token in the statement is from `T` and of the kind its node asks for. -/
def Stmt.Made : Stmt → Prop
  | .expression e => e.Made T
  | .print e => e.Made T
  | .var name init => name.From T .identifier ∧ ∀ e ∈ init, e.Made T
  | .block body => Stmt.MadeAll body
  | .ifThen test yes => test.Made T ∧ yes.Made
  | .ifElse test yes no => test.Made T ∧ yes.Made ∧ no.Made
  | .loop test body => test.Made T ∧ body.Made
  | .function decl => FunDecl.Made decl
  | .ret keyword value => keyword.From T .kwReturn ∧ ∀ e ∈ value, e.Made T
  | .classDecl name superclass methods =>
    name.From T .identifier ∧ (∀ ref ∈ superclass, ref.token.From T .identifier) ∧
      FunDecl.MadeAll methods

def Stmt.MadeAll : List Stmt → Prop
  | [] => True
  | s :: ss => s.Made ∧ Stmt.MadeAll ss

def FunDecl.Made : FunDecl Stmt → Prop
  | ⟨name, params, body⟩ =>
    name.From T .identifier ∧ (∀ p ∈ params, p.From T .identifier) ∧ Stmt.MadeAll body

def FunDecl.MadeAll : List (FunDecl Stmt) → Prop
  | [] => True
  | d :: ds => FunDecl.Made d ∧ FunDecl.MadeAll ds

end

end

section
variable {T T' : Token → Prop}

theorem Token.From.mono (hT : ∀ t, T t → T' t) {kind : TokenKind} {t : Token} (h : t.From T kind) :
    t.From T' kind := h.imp_left (hT t)

theorem Grammar.Joint.From.mono (hT : ∀ t, T t → T' t) {joint : Grammar.Joint} {t : Token}
    (h : joint.From T t) : joint.From T' t := h.imp_left (hT t)

mutual

theorem Expr.Made.mono (hT : ∀ t, T t → T' t) : ∀ {e : Expr}, e.Made T → e.Made T'
  | .literal _, h => h.imp_left fun ⟨t, ht, hc⟩ => ⟨t, hT t ht, hc⟩
  | .group inner, h => Expr.Made.mono (e := inner) hT h
  | .unary .., h => ⟨h.1.imp_left (hT _), h.2.mono hT⟩
  | .binary .., h => ⟨h.1.mono hT, h.2.1.mono hT, h.2.2.mono hT⟩
  | .logical .., h => ⟨h.1.mono hT, h.2.1.mono hT, h.2.2.mono hT⟩
  | .name _, h => Token.From.mono hT h
  | .assign .., h => ⟨h.1.mono hT, h.2.mono hT⟩
  | .call .., h => ⟨h.1.mono hT, h.2.1.mono hT, h.2.2.mono hT⟩
  | .get .., h => ⟨h.1.mono hT, h.2.mono hT⟩
  | .set .., h => ⟨h.1.mono hT, h.2.1.mono hT, h.2.2.mono hT⟩
  | .thisRef _, h => Token.From.mono hT h
  | .superRef .., h => ⟨h.1.mono hT, h.2.mono hT⟩

theorem Expr.MadeAll.mono (hT : ∀ t, T t → T' t) : ∀ {es : List Expr}, Expr.MadeAll T es →
    Expr.MadeAll T' es
  | [], _ => trivial
  | _ :: _, h => ⟨h.1.mono hT, h.2.mono hT⟩

end

mutual

theorem Stmt.Made.mono (hT : ∀ t, T t → T' t) : ∀ {s : Stmt}, s.Made T → s.Made T'
  | .expression _, h => Expr.Made.mono hT h
  | .print _, h => Expr.Made.mono hT h
  | .var .., h => ⟨h.1.mono hT, fun e he => (h.2 e he).mono hT⟩
  | .block _, h => Stmt.MadeAll.mono hT h
  | .ifThen .., h => ⟨h.1.mono hT, h.2.mono hT⟩
  | .ifElse .., h => ⟨h.1.mono hT, h.2.1.mono hT, h.2.2.mono hT⟩
  | .loop .., h => ⟨h.1.mono hT, h.2.mono hT⟩
  | .function _, h => FunDecl.Made.mono hT h
  | .ret .., h => ⟨h.1.mono hT, fun e he => (h.2 e he).mono hT⟩
  | .classDecl .., h => ⟨h.1.mono hT, fun ref hr => (h.2.1 ref hr).mono hT, h.2.2.mono hT⟩

theorem Stmt.MadeAll.mono (hT : ∀ t, T t → T' t) : ∀ {ss : List Stmt}, Stmt.MadeAll T ss →
    Stmt.MadeAll T' ss
  | [], _ => trivial
  | _ :: _, h => ⟨h.1.mono hT, h.2.mono hT⟩

theorem FunDecl.Made.mono (hT : ∀ t, T t → T' t) : ∀ {d : FunDecl Stmt}, FunDecl.Made T d →
    FunDecl.Made T' d
  | ⟨_, _, _⟩, h => ⟨h.1.mono hT, fun p hp => (h.2.1 p hp).mono hT, h.2.2.mono hT⟩

theorem FunDecl.MadeAll.mono (hT : ∀ t, T t → T' t) : ∀ {ds : List (FunDecl Stmt)},
    FunDecl.MadeAll T ds → FunDecl.MadeAll T' ds
  | [], _ => trivial
  | _ :: _, h => ⟨h.1.mono hT, h.2.mono hT⟩

end

theorem Stmt.made_forLoop {init : Option Stmt} {test update : Option Expr} {body : Stmt}
    (hi : ∀ s ∈ init, s.Made T) (ht : ∀ e ∈ test, e.Made T) (hu : ∀ e ∈ update, e.Made T)
    (hb : body.Made T) : (Stmt.forLoop init test update body).Made T := by
  have htest : (test.getD (.literal (.bool true))).Made T := by
    cases test with
    | none => exact .inr rfl
    | some e => exact ht e rfl
  cases init <;> cases update
  · exact ⟨htest, hb⟩
  · exact ⟨htest, hb, hu _ rfl, trivial⟩
  · exact ⟨hi _ rfl, ⟨htest, hb⟩, trivial⟩
  · exact ⟨hi _ rfl, ⟨htest, hb, hu _ rfl, trivial⟩, trivial⟩

theorem Stmt.madeAll_toList_append {first : Option Stmt} {ss : List Stmt}
    (h : ∀ s ∈ first, s.Made T) (h' : Stmt.MadeAll T ss) : Stmt.MadeAll T (first.toList ++ ss) := by
  cases first with
  | none => exact h'
  | some s => exact ⟨h s rfl, h'⟩

end

namespace Grammar

section
variable {T : Token → Prop}

theorem made_join {joint : Joint} {token : Token} {left right : Expr} (ht : joint.From T token)
    (hl : left.Made T) (hr : right.Made T) : (joint.join token left right).Made T := by
  cases joint <;> exact ⟨ht, hl, hr⟩

/-- The tokens that begin a constant spell one. -/
theorem made_constant {t : Token} (ht : T t) (hk : start? t.kind = some .constant) :
    (t.constant?.getD .nil).Made T := by
  refine .inl ⟨t, ht, ?_⟩
  cases h : t.kind <;> rw [h] at hk <;>
    first | exact absurd hk (by decide) | simp [Token.constant?, h]

end

/-! ## Cursors -/

namespace Cursor

/-- The cursor among other tokens: with other reports in front, other tokens behind, and another
end. -/
def amid (c : Cursor) (ds : List Diagnostic) (us : List Token) (eof : Token) : Cursor :=
  ⟨c.rest ++ us, eof, ds ++ c.diagnostics⟩

/-- The next token is the same with other tokens behind and another end. -/
def Settled (c : Cursor) (us : List Token) (eof : Token) : Prop :=
  c.rest ≠ [] ∨ us = [] ∧ eof = c.eof

/-- How a parser goes on from a cursor: forwards, and reporting faults at tokens of `T` or at the
end. -/
structure Leads (T : Token → Prop) (c c' : Cursor) : Prop where
  suffix : c'.rest <:+ c.rest
  eof : c'.eof = c.eof
  reports : ∃ ds, c'.diagnostics = c.diagnostics ++ ds ∧
    ∀ d ∈ ds, ∃ t cause, (T t ∨ t = c.eof) ∧ d = .ofToken t cause

variable {T : Token → Prop} {c c' c'' : Cursor} {us : List Token} {eof : Token}

theorem Leads.refl (c : Cursor) : c.Leads T c :=
  ⟨List.suffix_refl _, rfl, [], (List.append_nil _).symm, fun _ hd => by cases hd⟩

theorem Leads.trans (h : c.Leads T c') (h' : c'.Leads T c'') : c.Leads T c'' := by
  obtain ⟨ds, hds, hat⟩ := h.reports
  obtain ⟨ds', hds', hat'⟩ := h'.reports
  refine ⟨h'.suffix.trans h.suffix, h'.eof.trans h.eof, ds ++ ds', ?_, fun d hd => ?_⟩
  · rw [hds', hds, List.append_assoc]
  · rcases List.mem_append.1 hd with hd | hd
    · exact hat d hd
    · rw [← h.eof]
      exact hat' d hd

/-- What is settled at the end was settled before. -/
theorem Leads.settled (h : c.Leads T c') (hs : c'.Settled us eof) : c.Settled us eof := by
  rcases hs with hne | ⟨hus, heof⟩
  · exact .inl fun hc => hne (List.suffix_nil.1 (hc ▸ h.suffix))
  · exact .inr ⟨hus, heof.trans h.eof⟩

theorem Leads.from (h : c.Leads T c') (hc : ∀ t ∈ c.rest, T t) : ∀ t ∈ c'.rest, T t :=
  fun t ht => hc t (h.suffix.subset ht)

theorem Settled.head? (h : c.Settled us eof) : (c.rest ++ us).head? = c.rest.head? := by
  rcases h with hne | ⟨rfl, -⟩
  · exact List.head?_append_of_ne_nil _ hne
  · rw [List.append_nil]

theorem Settled.isEmpty (h : c.Settled us eof) : (c.rest ++ us).isEmpty = c.rest.isEmpty := by
  rcases h with hne | ⟨rfl, -⟩
  · cases hr : c.rest with
    | nil => exact absurd hr hne
    | cons t ts => rfl
  · rw [List.append_nil]

theorem Settled.here (h : c.Settled us eof) (ds : List Diagnostic) :
    (c.amid ds us eof).here = c.here := by
  rcases h with hne | ⟨rfl, rfl⟩
  · cases hr : c.rest with
    | nil => exact absurd hr hne
    | cons t ts => simp only [Cursor.here, amid, hr, List.cons_append, List.headD_cons]
  · simp only [Cursor.here, amid, List.append_nil]

theorem here_from (hc : ∀ t ∈ c.rest, T t) : T c.here ∨ c.here = c.eof := by
  unfold here
  cases hr : c.rest with
  | nil => exact .inr rfl
  | cons t ts => exact .inl (hc t (hr ▸ List.mem_cons_self))

end Cursor

/-! ## Parsers -/

section
variable {α β : Type} {T : Token → Prop} {P : α → Prop} {Q : β → Prop} {x x' : Parser α}
  {f f' : α → Parser β}

/-- What a parser makes and depends on (module doc). -/
def Makes (T : Token → Prop) (P : α → Prop) (x x' : Parser α) : Prop :=
  ∀ c : Cursor, (∀ t ∈ c.rest, T t) → Ends x c
    (fun a c' => c.Leads T c' ∧ P a ∧ ∀ ds us eof, c'.Settled us eof →
      x' (c.amid ds us eof) = .ok a (c'.amid ds us eof))
    (fun i c' => c.Leads T c' ∧ (i = .refused → ∀ ds us eof, c'.Settled us eof →
      x' (c.amid ds us eof) = .error .refused (c'.amid ds us eof)))

theorem makes_pure {a : α} (h : P a) : Makes T P (pure a) (pure a) :=
  fun c _ => ends_pure ⟨.refl c, h, fun _ _ _ _ => rfl⟩

theorem makes_outOfFuel : Makes T P (throw .outOfFuel) x' :=
  fun c _ => ends_throw ⟨.refl c, fun h => by cases h⟩

theorem Makes.mono {P' : α → Prop} (hx : Makes T P x x') (h : ∀ a, P a → P' a) :
    Makes T P' x x' :=
  fun c hc => (hx c hc).mono (fun a _ _ hq => ⟨hq.1, h a hq.2.1, hq.2.2⟩) fun _ _ he => he

theorem makes_bind (hx : Makes T P x x') (hf : ∀ a, P a → Makes T Q (f a) (f' a)) :
    Makes T Q (x >>= f) (x' >>= f') := by
  intro c hc
  refine ends_bind ((hx c hc).mono (fun a c₁ _ h _ => ?_) fun i c₁ h => ⟨h.1, fun hi ds us eof hs =>
    bind_error (h.2 hi ds us eof hs)⟩)
  obtain ⟨hl, hp, hsame⟩ := h
  refine (hf a hp c₁ (hl.from hc)).mono (fun b c₂ _ h₂ => ?_) fun i c₂ h₂ => ?_
  · refine ⟨hl.trans h₂.1, h₂.2.1, fun ds us eof hs => ?_⟩
    rw [bind_ok (hsame ds us eof (h₂.1.settled hs))]
    exact h₂.2.2 ds us eof hs
  · refine ⟨hl.trans h₂.1, fun hi ds us eof hs => ?_⟩
    rw [bind_ok (hsame ds us eof (h₂.1.settled hs))]
    exact h₂.2 hi ds us eof hs

theorem makes_map {g : α → β} (hx : Makes T (fun a => Q (g a)) x x') :
    Makes T Q (g <$> x) (g <$> x') :=
  fun c hc => ends_map ((hx c hc).mono
    (fun _ _ _ h => ⟨h.1, h.2.1, fun ds us eof hs => map_ok (h.2.2 ds us eof hs)⟩)
    fun _ _ h => ⟨h.1, fun hi ds us eof hs => map_error (h.2 hi ds us eof hs)⟩)

/-! ## Single tokens -/

theorem makes_check (kind : TokenKind) : Makes T (fun _ => True) (check kind) (check kind) := by
  refine fun c _ => ends_of_ok rfl ⟨.refl c, trivial, fun ds us eof hs => ?_⟩
  unfold check
  rw [show (c.amid ds us eof).rest = c.rest ++ us from rfl, hs.head?]

theorem makes_atEnd : Makes T (fun _ => True) atEnd atEnd := by
  refine fun c _ => ends_of_ok rfl ⟨.refl c, trivial, fun ds us eof hs => ?_⟩
  unfold atEnd
  rw [show (c.amid ds us eof).rest = c.rest ++ us from rfl, hs.isEmpty]

/-- Taking a token, or finding that the next one is another. -/
theorem makes_acceptMap {γ : Type} (g : TokenKind → Option γ) :
    Makes T (fun o => ∀ k t, o = some (k, t) → T t ∧ g t.kind = some k) (acceptMap g)
      (acceptMap g) := by
  rintro ⟨ts, end_, ds₀⟩ hc
  cases ts with
  | nil =>
    refine ends_of_ok (a := none) rfl ⟨.refl _, fun _ _ h => (by cases h), fun ds us eof hs => ?_⟩
    obtain ⟨rfl, rfl⟩ := hs.resolve_left fun h => h rfl
    rfl
  | cons t rest =>
    cases hg : g t.kind with
    | some k =>
      refine ends_of_ok (a := some (k, t)) (t := ⟨rest, end_, ds₀⟩) (by simp only [acceptMap, hg])
        ⟨⟨List.suffix_cons t rest, rfl, [], (List.append_nil _).symm, fun _ hd => by cases hd⟩,
          fun k' t' h => ?_, fun ds us eof _ => ?_⟩
      · cases h
        exact ⟨hc t List.mem_cons_self, hg⟩
      · simp only [acceptMap, Cursor.amid, List.cons_append, hg]
    | none =>
      refine ends_of_ok (a := none) (t := ⟨t :: rest, end_, ds₀⟩) (by simp only [acceptMap, hg])
        ⟨.refl _, fun _ _ h => (by cases h), fun ds us eof _ => ?_⟩
      simp only [acceptMap, Cursor.amid, List.cons_append, hg]

theorem accept_eq (kind : TokenKind) :
    accept kind =
      Option.map Prod.snd <$> acceptMap fun k => if k = kind then some () else none := by
  funext c
  obtain ⟨ts, eof, ds⟩ := c
  cases ts with
  | nil => rfl
  | cons t rest =>
    by_cases hk : t.kind = kind <;>
      simp only [accept, acceptMap, Functor.map, EStateM.map, hk, if_true, if_false, Option.map]

theorem makes_accept (kind : TokenKind) :
    Makes T (fun o => ∀ t, o = some t → t.From T kind) (accept kind) (accept kind) := by
  rw [accept_eq]
  refine makes_map ((makes_acceptMap _).mono fun o h t ht => ?_)
  obtain ⟨⟨u, t'⟩, rfl, rfl⟩ := Option.map_eq_some_iff.1 ht
  obtain ⟨hT, hk⟩ := h u t' rfl
  exact ⟨hT, by simpa using hk⟩

theorem makes_complainAt {t : Token} (ht : T t) (cause : Cause) :
    Makes T (fun _ => True) (complainAt t cause) (complainAt t cause) := by
  refine fun c _ => ends_of_ok rfl ⟨⟨List.suffix_refl _, rfl, [_], rfl, fun d hd => ?_⟩, trivial,
    fun ds us eof _ => ?_⟩
  · exact ⟨t, cause, .inl ht, List.mem_singleton.1 hd⟩
  · simp only [complainAt, Cursor.report, Cursor.amid, List.append_assoc]

theorem makes_complain (cause : Cause) :
    Makes T (fun _ => True) (complain cause) (complain cause) := by
  refine fun c hc => ends_of_ok rfl ⟨⟨List.suffix_refl _, rfl, [_], rfl, fun d hd => ?_⟩, trivial,
    fun ds us eof hs => ?_⟩
  · exact ⟨c.here, cause, Cursor.here_from hc, List.mem_singleton.1 hd⟩
  · have hs' : c.Settled us eof := hs
    unfold complain
    rw [hs'.here]
    simp only [complainAt, Cursor.report, Cursor.amid, List.append_assoc]

/-- A complaint on the way. -/
theorem makes_warn {p : Prop} [Decidable p] {cause : Cause} {k k' : Unit → Parser α}
    (hk : Makes T P (k ()) (k' ())) :
    Makes T P (if p then complain cause >>= k else k ())
      (if p then complain cause >>= k' else k' ()) := by
  split
  · exact makes_bind (makes_complain cause) fun _ _ => hk
  · exact hk

theorem makes_refuse (e : Expected) : Makes T P (refuse e) (refuse e) :=
  makes_bind (makes_complain _) fun _ _ c _ => ends_throw ⟨.refl c, fun _ _ _ _ _ => rfl⟩

theorem makes_expect (kind : TokenKind) (e : Expected) :
    Makes T (Token.From T kind) (expect kind e) (expect kind e) := by
  refine makes_bind (makes_accept kind) fun o h => ?_
  cases o with
  | some t => exact makes_pure (h t rfl)
  | none => exact makes_refuse e

end

/-! ## Recovery -/

theorem skipPast_append : ∀ {last : Token} {ts : List Token} (us : List Token),
    skipPast last ts ≠ [] → skipPast last (ts ++ us) = skipPast last ts ++ us
  | _, [], _, h => absurd rfl h
  | last, t :: ts, us, h => by
    by_cases hend : last.kind = .semicolon
    · simp only [List.cons_append, skipPast, hend, if_true]
    by_cases hbegins : beginsStatement t.kind = true
    · simp only [List.cons_append, skipPast, hend, hbegins, if_true, if_false]
    · simp only [skipPast, hend, hbegins, if_false] at h
      simp only [List.cons_append, skipPast, hend, hbegins, if_false]
      exact skipPast_append us h

/-- Where reading goes on does not depend on the tokens behind. -/
theorem synchronize_append {ts : List Token} (us : List Token) (h : synchronize ts ≠ []) :
    synchronize (ts ++ us) = synchronize ts ++ us := by
  cases ts with
  | nil => exact absurd rfl h
  | cons t ts => exact skipPast_append us h

theorem makes_recover {α : Type} {T : Token → Prop} {P : α → Prop} {x x' : Parser α}
    (hx : Makes T P x x') : Makes T (fun o => ∀ a ∈ o, P a) (recover x) (recover x') := by
  intro c hc
  cases h : x c with
  | ok a c₁ =>
    obtain ⟨hl, hp, hsame⟩ := Ends.ok (hx c hc) h
    refine ends_of_ok (a := some a) (t := c₁) (by simp only [recover, h]) ⟨hl, fun a' he => ?_,
      fun ds us eof hs => by simp only [recover, hsame ds us eof hs]⟩
    cases he
    exact hp
  | error i c₁ =>
    obtain ⟨hl, hsame⟩ := Ends.error (hx c hc) h
    cases i with
    | outOfFuel =>
      exact ends_of_error (e := .outOfFuel) (t := c₁) (by simp only [recover, h])
        ⟨hl, fun he => by cases he⟩
    | refused =>
      have hskip : c₁.Leads T { c₁ with rest := synchronize c₁.rest } :=
        ⟨synchronize_suffix _, rfl, [], (List.append_nil _).symm, fun _ hd => by cases hd⟩
      refine ends_of_ok (a := none) (t := { c₁ with rest := synchronize c₁.rest })
        (by simp only [recover, h])
        ⟨hl.trans hskip, fun _ he => (by cases he), fun ds us eof hs => ?_⟩
      have happ : synchronize (c₁.rest ++ us) = synchronize c₁.rest ++ us := by
        rcases hs with hne | ⟨rfl, -⟩
        · exact synchronize_append us hne
        · simp only [List.append_nil]
      unfold recover
      rw [hsame rfl ds us eof (hskip.settled hs)]
      simp only [Cursor.amid, happ]

/-! ## Expressions -/

/-- What the parsers of expressions make with the depth `n`, and with `n'`. -/
structure MakesExpressions (T : Token → Prop) (n n' : Nat) : Prop where
  expression : Makes T (Expr.Made T) (expression n) (expression n')
  operand : ∀ level, Makes T (Expr.Made T) (operand n level) (operand n' level)
  tighter : ∀ level, Makes T (Expr.Made T) (tighter n level) (tighter n' level)
  joined : ∀ level {left}, left.Made T →
    Makes T (Expr.Made T) (joined n level left) (joined n' level left)
  unary : Makes T (Expr.Made T) (unary n) (unary n')
  suffixes : ∀ {head}, head.Made T → Makes T (Expr.Made T) (suffixes n head) (suffixes n' head)
  arguments : Makes T (Expr.MadeAll T) (arguments n) (arguments n')
  moreArguments : ∀ count,
    Makes T (Expr.MadeAll T) (moreArguments n count) (moreArguments n' count)
  primary : Makes T (Expr.Made T) (primary n) (primary n')

theorem makes_assignTo {T : Token → Prop} {target value : Expr} {equals : Token}
    (ht : target.Made T) (he : T equals) (hv : value.Made T) :
    Makes T (Expr.Made T) (assignTo target equals value) (assignTo target equals value) := by
  unfold assignTo
  split
  · exact makes_pure ⟨ht, hv⟩
  · exact makes_pure ⟨ht.1, ht.2, hv⟩
  · exact makes_bind (makes_complainAt he _) fun _ _ => makes_pure ht

section
variable {T : Token → Prop} {n n' : Nat} (ih : MakesExpressions T n n')
include ih

theorem MakesExpressions.expression_succ :
    Makes T (Expr.Made T) (Grammar.expression (n + 1)) (Grammar.expression (n' + 1)) := by
  unfold Grammar.expression
  refine makes_bind (ih.operand .or) fun target ht => ?_
  refine makes_bind (makes_accept .equal) fun o ho => ?_
  cases o with
  | none => exact makes_pure ht
  | some equals =>
    exact makes_bind ih.expression fun value hv => makes_assignTo ht (ho equals rfl).1 hv

theorem MakesExpressions.operand_succ (level : Level) :
    Makes T (Expr.Made T) (Grammar.operand (n + 1) level) (Grammar.operand (n' + 1) level) := by
  unfold Grammar.operand
  exact makes_bind (ih.tighter level) fun left hl => ih.joined level hl

theorem MakesExpressions.tighter_succ (level : Level) :
    Makes T (Expr.Made T) (Grammar.tighter (n + 1) level) (Grammar.tighter (n' + 1) level) := by
  unfold Grammar.tighter
  split
  · exact ih.operand _
  · exact ih.unary

theorem MakesExpressions.joined_succ (level : Level) {left : Expr} (hl : left.Made T) :
    Makes T (Expr.Made T) (Grammar.joined (n + 1) level left)
      (Grammar.joined (n' + 1) level left) := by
  unfold Grammar.joined
  refine makes_bind (makes_acceptMap level.joint?) fun o ho => ?_
  cases o with
  | none => exact makes_pure hl
  | some p =>
    obtain ⟨joint, token⟩ := p
    obtain ⟨hT, hk⟩ := ho joint token rfl
    refine makes_bind (ih.tighter level) fun right hr => ?_
    exact ih.joined level (made_join ⟨hT, level, hk⟩ hl hr)

theorem MakesExpressions.unary_succ :
    Makes T (Expr.Made T) (Grammar.unary (n + 1)) (Grammar.unary (n' + 1)) := by
  unfold Grammar.unary
  refine makes_bind (makes_acceptMap unaryOp?) fun o ho => ?_
  cases o with
  | none => exact makes_bind ih.primary fun head hh => ih.suffixes hh
  | some p => exact makes_bind ih.unary fun right hr => makes_pure ⟨ho _ _ rfl, hr⟩

theorem MakesExpressions.suffixes_succ {head : Expr} (hh : head.Made T) :
    Makes T (Expr.Made T) (Grammar.suffixes (n + 1) head) (Grammar.suffixes (n' + 1) head) := by
  unfold Grammar.suffixes
  refine makes_bind (makes_accept .leftParen) fun o _ => ?_
  cases o with
  | some t =>
    refine makes_bind ih.arguments fun args ha => ?_
    refine makes_bind (makes_expect .rightParen _) fun paren hp => ?_
    exact ih.suffixes ⟨hh, hp, ha⟩
  | none =>
    refine makes_bind (makes_accept .dot) fun o _ => ?_
    cases o with
    | some t =>
      refine makes_bind (makes_expect .identifier _) fun property hp => ?_
      exact ih.suffixes ⟨hh, hp⟩
    | none => exact makes_pure hh

theorem MakesExpressions.arguments_succ :
    Makes T (Expr.MadeAll T) (Grammar.arguments (n + 1)) (Grammar.arguments (n' + 1)) := by
  unfold Grammar.arguments
  refine makes_bind (makes_check .rightParen) fun b _ => ?_
  cases b with
  | true => exact makes_pure trivial
  | false => exact ih.moreArguments 0

theorem MakesExpressions.moreArguments_succ (count : Nat) :
    Makes T (Expr.MadeAll T) (Grammar.moreArguments (n + 1) count)
      (Grammar.moreArguments (n' + 1) count) := by
  unfold Grammar.moreArguments
  refine makes_warn ?_
  refine makes_bind ih.expression fun arg ha => ?_
  refine makes_bind (makes_accept .comma) fun o _ => ?_
  cases o with
  | some t =>
    exact makes_bind (ih.moreArguments (count + 1)) fun args has => makes_pure ⟨ha, has⟩
  | none => exact makes_pure ⟨ha, trivial⟩

theorem MakesExpressions.primary_succ :
    Makes T (Expr.Made T) (Grammar.primary (n + 1)) (Grammar.primary (n' + 1)) := by
  unfold Grammar.primary
  refine makes_bind (makes_acceptMap start?) fun o ho => ?_
  cases o with
  | none => exact makes_refuse _
  | some p =>
    obtain ⟨start, token⟩ := p
    obtain ⟨hT, hk⟩ := ho start token rfl
    cases start with
    | constant => exact makes_pure (made_constant hT hk)
    | name => exact makes_pure ⟨hT, kind_of_start? hk rfl⟩
    | thisWord => exact makes_pure ⟨hT, kind_of_start? hk rfl⟩
    | superWord =>
      refine makes_bind (makes_expect .dot _) fun _ _ => ?_
      refine makes_bind (makes_expect .identifier _) fun method hm => ?_
      exact makes_pure ⟨⟨hT, kind_of_start? hk rfl⟩, hm⟩
    | paren =>
      refine makes_bind ih.expression fun inner hi => ?_
      exact makes_bind (makes_expect .rightParen _) fun _ _ => makes_pure hi

end

section
variable (T : Token → Prop)

theorem makesExpressions : ∀ {n n' : Nat}, n ≤ n' → MakesExpressions T n n'
  | 0, _, _ => by constructor <;> intros <;> exact makes_outOfFuel
  | n + 1, n' + 1, h =>
    have ih := makesExpressions (Nat.le_of_succ_le_succ h)
    { expression := ih.expression_succ
      operand := ih.operand_succ
      tighter := ih.tighter_succ
      joined := ih.joined_succ
      unary := ih.unary_succ
      suffixes := ih.suffixes_succ
      arguments := ih.arguments_succ
      moreArguments := ih.moreArguments_succ
      primary := ih.primary_succ }

end

/-! ## Statements without statements inside -/

section
variable {T : Token → Prop} {n n' : Nat} (h : n ≤ n')
include h

theorem makes_varDecl : Makes T (Stmt.Made T) (varDecl n) (varDecl n') := by
  unfold varDecl
  refine makes_bind (makes_expect .identifier _) fun name hn => ?_
  refine makes_bind (makes_accept .equal) fun o _ => ?_
  have hend : ∀ init : Option Expr, (∀ e ∈ init, e.Made T) →
      let p : Parser Stmt := do
        let _ ← expect .semicolon .variableEnd
        pure (Stmt.var name init)
      Makes T (Stmt.Made T) p p :=
    fun init hi => makes_bind (makes_expect .semicolon _) fun _ _ => makes_pure ⟨hn, hi⟩
  cases o with
  | some _ =>
    refine makes_bind (makes_map ((makesExpressions T h).expression.mono fun e he => ?_)) hend
    exact fun e' h' => Option.some.inj h' ▸ he
  | none => exact makes_bind (makes_pure fun e he => by cases he) hend

theorem makes_expressionStmt : Makes T (Stmt.Made T) (expressionStmt n) (expressionStmt n') := by
  unfold expressionStmt
  refine makes_bind (makesExpressions T h).expression fun e he => ?_
  exact makes_bind (makes_expect .semicolon _) fun _ _ => makes_pure he

theorem makes_printStmt : Makes T (Stmt.Made T) (printStmt n) (printStmt n') := by
  unfold printStmt
  refine makes_bind (makesExpressions T h).expression fun e he => ?_
  exact makes_bind (makes_expect .semicolon _) fun _ _ => makes_pure he

theorem makes_optionalExpression (stop : TokenKind) :
    Makes T (fun o => ∀ e ∈ o, e.Made T) (optionalExpression n stop)
      (optionalExpression n' stop) := by
  unfold optionalExpression
  refine makes_bind (makes_check stop) fun b _ => ?_
  cases b with
  | true => exact makes_pure fun e he => by cases he
  | false =>
    refine makes_map ((makesExpressions T h).expression.mono fun e he e' h' => ?_)
    exact Option.some.inj h' ▸ he

theorem makes_returnStmt {keyword : Token} (hk : keyword.From T .kwReturn) :
    Makes T (Stmt.Made T) (returnStmt n keyword) (returnStmt n' keyword) := by
  unfold returnStmt
  refine makes_bind (makes_optionalExpression h .semicolon) fun value hv => ?_
  exact makes_bind (makes_expect .semicolon _) fun _ _ => makes_pure ⟨hk, hv⟩

theorem makes_forInit : Makes T (fun o => ∀ s ∈ o, s.Made T) (forInit n) (forInit n') := by
  unfold forInit
  refine makes_bind (makes_accept .semicolon) fun o _ => ?_
  have hsome : ∀ s : Stmt, s.Made T → ∀ s' ∈ some s, s'.Made T :=
    fun s hs s' h' => Option.some.inj h' ▸ hs
  cases o with
  | some _ => exact makes_pure fun s hs => by cases hs
  | none =>
    refine makes_bind (makes_accept .kwVar) fun o _ => ?_
    cases o with
    | some _ => exact makes_map ((makes_varDecl h).mono hsome)
    | none => exact makes_map ((makes_expressionStmt h).mono hsome)

theorem makes_testInParens (start stop : Expected) :
    Makes T (Expr.Made T) (testInParens n start stop) (testInParens n' start stop) := by
  unfold testInParens
  refine makes_bind (makes_expect .leftParen start) fun _ _ => ?_
  refine makes_bind (makesExpressions T h).expression fun e he => ?_
  exact makes_bind (makes_expect .rightParen stop) fun _ _ => makes_pure he

end

section
variable (T : Token → Prop)

theorem makes_moreParameters : ∀ {n n' : Nat} (count : Nat), n ≤ n' →
    Makes T (fun ps => ∀ p ∈ ps, p.From T .identifier) (moreParameters n count)
      (moreParameters n' count)
  | 0, _, _, _ => makes_outOfFuel
  | n + 1, n' + 1, count, h => by
    unfold moreParameters
    refine makes_warn ?_
    refine makes_bind (makes_expect .identifier _) fun param hp => ?_
    refine makes_bind (makes_accept .comma) fun o _ => ?_
    cases o with
    | some t =>
      refine makes_bind (makes_moreParameters (count + 1) (Nat.le_of_succ_le_succ h))
        fun params hps => makes_pure ?_
      exact List.forall_mem_cons.2 ⟨hp, hps⟩
    | none => exact makes_pure (List.forall_mem_singleton.2 hp)

theorem makes_parameters {n n' : Nat} (h : n ≤ n') :
    Makes T (fun ps => ∀ p ∈ ps, p.From T .identifier) (parameters n) (parameters n') := by
  unfold parameters
  refine makes_bind (makes_check .rightParen) fun b _ => ?_
  cases b with
  | true => exact makes_pure fun p hp => by cases hp
  | false => exact makes_moreParameters T 0 h

end

/-! ## Statements and declarations -/

/-- A declaration without its recovery point. -/
def declared (n : Nat) : Parser Stmt := do
  match ← acceptMap declarationForm? with
  | some (.classForm, _) => classDecl n
  | some (.funForm, _) => .function <$> function n .function
  | some (_, _) => varDecl n
  | none => statement n

theorem declaration_succ (n : Nat) : declaration (n + 1) = recover (declared n) := rfl

/-- What the parsers of statements make with the depth `n`, and with `n'`. -/
structure MakesStatements (T : Token → Prop) (n n' : Nat) : Prop where
  declaration : Makes T (fun o => ∀ s ∈ o, s.Made T) (declaration n) (declaration n')
  classDecl : Makes T (Stmt.Made T) (classDecl n) (classDecl n')
  methods : Makes T (FunDecl.MadeAll T) (methods n) (methods n')
  function : ∀ routine, Makes T (FunDecl.Made T) (function n routine) (function n' routine)
  block : Makes T (Stmt.MadeAll T) (block n) (block n')
  statement : Makes T (Stmt.Made T) (statement n) (statement n')
  forStmt : Makes T (Stmt.Made T) (forStmt n) (forStmt n')
  ifStmt : Makes T (Stmt.Made T) (ifStmt n) (ifStmt n')

section
variable {T : Token → Prop} {n n' : Nat} (h : n ≤ n') (ih : MakesStatements T n n')
include h ih

theorem MakesStatements.declared : Makes T (Stmt.Made T) (declared n) (declared n') := by
  unfold Grammar.declared
  refine makes_bind (makes_acceptMap declarationForm?) fun o ho => ?_
  have hvar : Makes T (Stmt.Made T) (varDecl n) (varDecl n') := makes_varDecl h
  cases o with
  | none => exact ih.statement
  | some p =>
    obtain ⟨form, t⟩ := p
    cases form with
    | classForm => exact ih.classDecl
    | funForm => exact makes_map (ih.function .function)
    | _ => exact hvar

theorem MakesStatements.declaration_succ :
    Makes T (fun o => ∀ s ∈ o, s.Made T) (Grammar.declaration (n + 1))
      (Grammar.declaration (n' + 1)) :=
  makes_recover (ih.declared h)

omit h in
theorem MakesStatements.classDecl_succ :
    Makes T (Stmt.Made T) (Grammar.classDecl (n + 1)) (Grammar.classDecl (n' + 1)) := by
  unfold Grammar.classDecl
  refine makes_bind (makes_expect .identifier _) fun name hn => ?_
  refine makes_bind (makes_accept .less) fun o _ => ?_
  have hend : ∀ superclass : Option Reference,
      (∀ ref ∈ superclass, ref.token.From T .identifier) →
      Makes T (Stmt.Made T) (do
        let _ ← expect .leftBrace .classBody
        let methods ← Grammar.methods n
        let _ ← expect .rightBrace .classEnd
        pure (Stmt.classDecl name superclass methods)) (do
        let _ ← expect .leftBrace .classBody
        let methods ← Grammar.methods n'
        let _ ← expect .rightBrace .classEnd
        pure (Stmt.classDecl name superclass methods)) := by
    intro superclass hs
    refine makes_bind (makes_expect .leftBrace _) fun _ _ => ?_
    refine makes_bind ih.methods fun methods hm => ?_
    exact makes_bind (makes_expect .rightBrace _) fun _ _ => makes_pure ⟨hn, hs, hm⟩
  cases o with
  | some _ =>
    refine makes_bind (makes_map ((makes_expect .identifier _).mono fun t ht => ?_)) hend
    exact fun ref he => Option.some.inj he ▸ ht
  | none => exact makes_bind (makes_pure fun ref he => by cases he) hend

omit h in
theorem MakesStatements.methods_succ :
    Makes T (FunDecl.MadeAll T) (Grammar.methods (n + 1)) (Grammar.methods (n' + 1)) := by
  unfold Grammar.methods
  refine makes_bind (makes_check .rightBrace) fun closes _ => ?_
  refine makes_bind makes_atEnd fun ends _ => ?_
  split
  · exact makes_pure trivial
  · refine makes_bind (ih.function .method) fun d hd => ?_
    exact makes_bind ih.methods fun ds hds => makes_pure ⟨hd, hds⟩

theorem MakesStatements.function_succ (routine : Routine) :
    Makes T (FunDecl.Made T) (Grammar.function (n + 1) routine)
      (Grammar.function (n' + 1) routine) := by
  unfold Grammar.function
  refine makes_bind (makes_expect .identifier _) fun name hn => ?_
  refine makes_bind (makes_expect .leftParen _) fun _ _ => ?_
  refine makes_bind (makes_parameters T h) fun params hp => ?_
  refine makes_bind (makes_expect .rightParen _) fun _ _ => ?_
  refine makes_bind (makes_expect .leftBrace _) fun _ _ => ?_
  exact makes_bind ih.block fun body hb => makes_pure ⟨hn, hp, hb⟩

omit h in
theorem MakesStatements.block_succ :
    Makes T (Stmt.MadeAll T) (Grammar.block (n + 1)) (Grammar.block (n' + 1)) := by
  unfold Grammar.block
  refine makes_bind (makes_check .rightBrace) fun closes _ => ?_
  refine makes_bind makes_atEnd fun ends _ => ?_
  split
  · exact makes_bind (makes_expect .rightBrace _) fun _ _ => makes_pure trivial
  · refine makes_bind ih.declaration fun first hf => ?_
    exact makes_bind ih.block fun body hb => makes_pure (Stmt.madeAll_toList_append hf hb)

theorem MakesStatements.statement_succ :
    Makes T (Stmt.Made T) (Grammar.statement (n + 1)) (Grammar.statement (n' + 1)) := by
  unfold Grammar.statement
  refine makes_bind (makes_acceptMap statementForm?) fun o ho => ?_
  have hblock : Makes T (Stmt.Made T) (Stmt.block <$> Grammar.block n)
      (Stmt.block <$> Grammar.block n') := makes_map ih.block
  cases o with
  | none => exact makes_expressionStmt h
  | some p =>
    obtain ⟨form, t⟩ := p
    obtain ⟨hT, hk⟩ := ho form t rfl
    cases form with
    | forForm => exact ih.forStmt
    | ifForm => exact ih.ifStmt
    | printForm => exact makes_printStmt h
    | returnForm => exact makes_returnStmt h ⟨hT, (statementForm?_eq_some hk).1⟩
    | whileForm =>
      refine makes_bind (makes_testInParens h _ _) fun test ht => ?_
      exact makes_bind ih.statement fun body hb => makes_pure ⟨ht, hb⟩
    | _ => exact hblock

theorem MakesStatements.forStmt_succ :
    Makes T (Stmt.Made T) (Grammar.forStmt (n + 1)) (Grammar.forStmt (n' + 1)) := by
  unfold Grammar.forStmt
  refine makes_bind (makes_expect .leftParen _) fun _ _ => ?_
  refine makes_bind (makes_forInit h) fun init hi => ?_
  refine makes_bind (makes_optionalExpression h .semicolon) fun test ht => ?_
  refine makes_bind (makes_expect .semicolon _) fun _ _ => ?_
  refine makes_bind (makes_optionalExpression h .rightParen) fun update hu => ?_
  refine makes_bind (makes_expect .rightParen _) fun _ _ => ?_
  exact makes_bind ih.statement fun body hb => makes_pure (Stmt.made_forLoop hi ht hu hb)

theorem MakesStatements.ifStmt_succ :
    Makes T (Stmt.Made T) (Grammar.ifStmt (n + 1)) (Grammar.ifStmt (n' + 1)) := by
  unfold Grammar.ifStmt
  refine makes_bind (makes_testInParens h _ _) fun test ht => ?_
  refine makes_bind ih.statement fun yes hy => ?_
  refine makes_bind (makes_accept .kwElse) fun o _ => ?_
  cases o with
  | some _ => exact makes_bind ih.statement fun no hno => makes_pure ⟨ht, hy, hno⟩
  | none => exact makes_pure ⟨ht, hy⟩

end

section
variable (T : Token → Prop)

theorem makesStatements : ∀ {n n' : Nat}, n ≤ n' → MakesStatements T n n'
  | 0, _, _ => by constructor <;> intros <;> exact makes_outOfFuel
  | n + 1, n' + 1, h =>
    have hle := Nat.le_of_succ_le_succ h
    have ih := makesStatements hle
    { declaration := ih.declaration_succ hle
      classDecl := ih.classDecl_succ
      methods := ih.methods_succ
      function := ih.function_succ hle
      block := ih.block_succ
      statement := ih.statement_succ hle
      forStmt := ih.forStmt_succ hle
      ifStmt := ih.ifStmt_succ hle }

theorem makes_declarations : ∀ {n n' : Nat}, n ≤ n' →
    Makes T (Stmt.MadeAll T) (declarations n) (declarations n')
  | 0, _, _ => makes_outOfFuel
  | n + 1, n' + 1, h => by
    unfold declarations
    have hle := Nat.le_of_succ_le_succ h
    refine makes_bind makes_atEnd fun b _ => ?_
    cases b with
    | true => exact makes_pure trivial
    | false =>
      refine makes_bind (makesStatements T hle).declaration fun first hf => ?_
      exact makes_bind (makes_declarations hle) fun ss hs =>
        makes_pure (Stmt.madeAll_toList_append hf hs)

end

end Grammar

end Lox

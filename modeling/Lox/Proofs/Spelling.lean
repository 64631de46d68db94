import Lox.Program
import Lox.Proofs.Parsing
import Lox.Proofs.Placement

/-!
# What a source can spell

The scanner tells names from reserved words: no identifier is spelled like `this` or `super`, and
these two words are spelled as they are (`spelled_scan`). So every tree that the grammar yields from
a source without a fault is formed (`Program.formed`).
-/

namespace Lox

/-! ## Tokens -/

/-- A word is a reserved one exactly if it is spelled like one. -/
def Token.Spelled (t : Token) : Prop :=
  t.kind = .identifier ∨ t.kind = .kwThis ∨ t.kind = .kwSuper →
    t.kind = .ofWord t.lexeme.toList

theorem Token.Spelled.not_isWord {t : Token} (h : t.Spelled) (hk : t.kind = .identifier) :
    ¬ Heap.isWord t.lexeme := by
  have hw := h (.inl hk)
  rw [hk] at hw
  rintro (he | he) <;> rw [he] at hw <;> exact absurd hw (by decide)

theorem TokenKind.mem_keywords {word : List Char} {kind : TokenKind} (hk : kind ≠ .identifier)
    (h : kind = .ofWord word) : (String.ofList word, kind) ∈ keywords := by
  unfold ofWord at h
  cases hl : keywords.lookup (String.ofList word) with
  | none => rw [hl] at h; exact absurd h hk
  | some k =>
    rw [hl] at h
    cases h
    obtain ⟨l₁, l₂, he, -⟩ := List.lookup_eq_some_iff.1 hl
    rw [he]
    simp

theorem Token.Spelled.eq_this {t : Token} (h : t.Spelled) (hk : t.kind = .kwThis) :
    t.lexeme = "this" := by
  have hm := TokenKind.mem_keywords (by simp [hk]) (h (.inr (.inl hk)))
  rw [hk, String.ofList_toList] at hm
  simpa [TokenKind.keywords] using hm

theorem Token.Spelled.eq_super {t : Token} (h : t.Spelled) (hk : t.kind = .kwSuper) :
    t.lexeme = "super" := by
  have hm := TokenKind.mem_keywords (by simp [hk]) (h (.inr (.inr hk)))
  rw [hk, String.ofList_toList] at hm
  simpa [TokenKind.keywords] using hm

/-! ## Scanning -/

namespace Piece

/-- The kind of a word stands in its text. -/
def Spelled : Piece → Prop
  | token kind text =>
    kind = .identifier ∨ kind = .kwThis ∨ kind = .kwSuper → kind = .ofWord text
  | _ => True

theorem spelled_next (c : Char) (cs : List Char) : (next c cs).1.Spelled := by
  have single : ∀ {kind}, single? c = some kind →
      ¬ (kind = .identifier ∨ kind = .kwThis ∨ kind = .kwSuper) := by
    intro kind h
    unfold single? at h
    split at h <;> cases h <;> decide
  have extensible : ∀ {plain extended}, extensible? c = some (plain, extended) →
      ¬ (plain = .identifier ∨ plain = .kwThis ∨ plain = .kwSuper) ∧
      ¬ (extended = .identifier ∨ extended = .kwThis ∨ extended = .kwSuper) := by
    intro plain extended h
    unfold extensible? at h
    split at h <;> cases h <;> decide
  unfold next
  split
  · rename_i kind h
    exact fun hk => absurd hk (single h)
  split
  · rename_i plain extended h
    split
    · exact fun hk => absurd hk (extensible h).2
    · exact fun hk => absurd hk (extensible h).1
  split
  · split
    · trivial
    · exact fun hk => absurd hk (by decide)
  split
  · trivial
  split
  · unfold stringPiece
    split
    · exact fun hk => absurd hk (by decide)
    · trivial
  split
  · exact fun hk => absurd hk (by decide)
  split
  · exact fun _ => rfl
  · trivial

theorem spelled_cut (cs : List Char) : ∀ p ∈ cut cs, p.Spelled := by
  fun_induction cut cs with
  | case1 => exact fun p hp => by cases hp
  | case2 c cs ih =>
    intro p hp
    rcases List.mem_cons.1 hp with rfl | hp
    · exact spelled_next c cs
    · exact ih p hp

theorem spelled_pieces (source : List Char) : ∀ p ∈ pieces source, p.Spelled := by
  unfold pieces
  split
  · intro p hp
    rcases List.mem_cons.1 hp with rfl | hp
    · trivial
    · exact spelled_cut _ p hp
  · exact spelled_cut source

theorem mem_of_mem_placed : ∀ {ps : List Piece} {p q : Position} {piece : Piece},
    (q, piece) ∈ placed p ps → piece ∈ ps
  | _ :: ps, p, q, piece, h => by
    rcases List.mem_cons.1 h with h | h
    · cases h
      exact List.mem_cons_self
    · exact List.mem_cons_of_mem _ (mem_of_mem_placed h)

end Piece

theorem spelled_scan (source : String) : ∀ t ∈ (scan source).tokens, t.Spelled := by
  intro t ht
  obtain ⟨⟨p, piece⟩, hm, he⟩ := List.mem_filterMap.1 ht
  have hs := Piece.spelled_pieces source.toList piece (Piece.mem_of_mem_placed hm)
  cases piece with
  | token kind text =>
    cases he
    simpa [Token.Spelled, Piece.Spelled] using hs
  | _ => cases he

/-! ## Phrases -/

namespace Grammar

/-- The tree of a phrase is formed, and the statements of the grammar declare nothing. -/
def Phrase.Formed : Phrase → Prop
  | .expression e | .operand _ e | .tighter _ e | .unary e | .primary e | .testInParens _ _ e =>
    e.Formed
  | .joined _ left e => left.Formed → e.Formed
  | .suffixes head e => head.Formed → e.Formed
  | .arguments es | .moreArguments _ es => Expr.FormedAll es
  | .optionalExpression _ o => ∀ e, o = some e → e.Formed
  | .varDecl stmt | .declaration stmt | .classDecl stmt => stmt.Formed
  | .expressionStmt stmt | .printStmt stmt | .returnStmt _ stmt | .statement stmt | .forStmt stmt
  | .ifStmt stmt => stmt.Formed ∧ stmt.isDeclaration = false
  | .forInit o => ∀ stmt, o = some stmt → stmt.Formed
  | .moreParameters _ params | .parameters params => ∀ p ∈ params, ¬ Heap.isWord p.lexeme
  | .methods ds => FunDecl.FormedAll ds
  | .function _ d => FunDecl.Formed d
  | .block body | .declarations body => Stmt.FormedAll body

theorem Joint.formed_join (joint : Joint) (token : Token) {left right : Expr} (hl : left.Formed)
    (hr : right.Formed) : (joint.join token left right).Formed := by
  cases joint <;> exact ⟨hl, hr⟩

theorem formed_forLoop {init : Option Stmt} {test update : Option Expr} {body : Stmt}
    (hi : ∀ stmt, init = some stmt → stmt.Formed) (ht : ∀ e, test = some e → e.Formed)
    (hu : ∀ e, update = some e → e.Formed) (hb : body.Formed ∧ body.isDeclaration = false) :
    (Stmt.forLoop init test update body).Formed ∧
      (Stmt.forLoop init test update body).isDeclaration = false := by
  have htest : (test.getD (.literal (.bool true))).Formed := by
    cases test with
    | none => trivial
    | some e => exact ht e rfl
  cases init with
  | none =>
    cases update with
    | none => exact ⟨⟨htest, hb⟩, rfl⟩
    | some u => exact ⟨⟨htest, ⟨hb.1, hu u rfl, trivial⟩, rfl⟩, rfl⟩
  | some stmt =>
    cases update with
    | none => exact ⟨⟨hi stmt rfl, ⟨htest, hb⟩, trivial⟩, rfl⟩
    | some u => exact ⟨⟨hi stmt rfl, ⟨htest, ⟨hb.1, hu u rfl, trivial⟩, rfl⟩, trivial⟩, rfl⟩

section
variable {t : Token} {ts rest : List Token}

theorem spelled_tail (h : ∀ t' ∈ t :: ts, t'.Spelled) : ∀ t' ∈ ts, t'.Spelled :=
  fun t' hm => h t' (List.mem_cons_of_mem _ hm)

theorem Reads.spelled_rest {ph : Phrase} (h : Reads ph ts rest) (hs : ∀ t ∈ ts, t.Spelled) :
    ∀ t ∈ rest, t.Spelled :=
  fun t hm => hs t (h.past.suffix.subset hm)

theorem not_isWord_head (hs : ∀ t' ∈ t :: ts, t'.Spelled) (hk : t.kind = .identifier) :
    ¬ Heap.isWord t.lexeme :=
  (hs t List.mem_cons_self).not_isWord hk

end

/-- What the grammar yields from well-spelled tokens is formed. -/
theorem Reads.formed {ph : Phrase} {ts rest : List Token} (h : Reads ph ts rest) :
    (∀ t ∈ ts, t.Spelled) → ph.Formed := by
  induction h with
  | plain _ _ ih | descend _ _ ih | tightest _ _ ih | someArguments _ _ ih | someParameters _ _ ih
  | expressionForm _ _ ih => exact ih
  | statementForm _ _ ih => exact fun hs => (ih hs).1
  | assignName h _ _ ih₁ ih₂ =>
    exact fun hs => ⟨ih₁ hs, ih₂ (spelled_tail (h.spelled_rest hs))⟩
  | assignProperty h _ _ ih₁ ih₂ =>
    exact fun hs => ⟨ih₁ hs, ih₂ (spelled_tail (h.spelled_rest hs))⟩
  | operand h _ ih₁ ih₂ => exact fun hs => ih₂ (h.spelled_rest hs) (ih₁ hs)
  | joinedStop | suffixStop => exact fun _ => id
  | @joinedMore _ joint token _ _ _ _ _ _ _ h _ ih₁ ih₂ =>
    exact fun hs hl => ih₂ (h.spelled_rest (spelled_tail hs))
      (joint.formed_join token hl (ih₁ (spelled_tail hs)))
  | prefixed _ _ ih => exact fun hs => ih (spelled_tail hs)
  | unprefixed _ h _ ih₁ ih₂ => exact fun hs => ih₂ (h.spelled_rest hs) (ih₁ hs)
  | call _ h _ _ ih₁ ih₂ =>
    exact fun hs hh => ih₂ (spelled_tail (h.spelled_rest (spelled_tail hs)))
      ⟨hh, ih₁ (spelled_tail hs)⟩
  | property _ _ _ ih => exact fun hs hh => ih (spelled_tail (spelled_tail hs)) hh
  | noArguments | noMethods | blockEnd | finished | constant => exact fun _ => trivial
  | lastArgument _ _ _ ih => exact fun hs => ⟨ih hs, trivial⟩
  | nextArgument _ h _ _ ih₁ ih₂ =>
    exact fun hs => ⟨ih₁ hs, ih₂ (spelled_tail (h.spelled_rest hs))⟩
  | name hk => exact fun hs => not_isWord_head hs hk
  | thisWord hk => exact fun hs => (hs _ List.mem_cons_self).eq_this hk
  | superWord hk => exact fun hs => (hs _ List.mem_cons_self).eq_super hk
  | group _ _ _ ih | testInParens _ _ _ ih => exact fun hs => ih (spelled_tail hs)
  | varPlain hn _ => exact fun hs => ⟨not_isWord_head hs hn, fun e he => by cases he⟩
  | varInit hn _ _ _ ih =>
    refine fun hs => ⟨not_isWord_head hs hn, fun e he => ?_⟩
    cases he
    exact ih (spelled_tail (spelled_tail hs))
  | expressionStmt _ _ ih | printStmt _ _ ih => exact fun hs => ⟨ih hs, rfl⟩
  | absent => exact fun _ e he => by cases he
  | present _ _ ih =>
    intro hs e he
    cases he
    exact ih hs
  | returnStmt _ _ ih => exact fun hs => ⟨ih hs, rfl⟩
  | initNone => exact fun _ stmt he => by cases he
  | initVar _ _ ih =>
    intro hs stmt he
    cases he
    exact ih (spelled_tail hs)
  | initExpression _ _ _ ih =>
    intro hs stmt he
    cases he
    exact (ih hs).1
  | lastParameter _ hp _ =>
    intro hs p hm
    cases List.mem_singleton.1 hm
    exact not_isWord_head hs hp
  | nextParameter _ hp _ _ ih =>
    intro hs p hm
    rcases List.mem_cons.1 hm with rfl | hm
    · exact not_isWord_head hs hp
    · exact ih (spelled_tail (spelled_tail hs)) p hm
  | noParameters => exact fun _ p hm => by cases hm
  | classForm _ _ ih | funForm _ _ ih | varForm _ _ ih | forForm _ _ ih | ifForm _ _ ih
  | printForm _ _ ih | returnForm _ _ ih => exact fun hs => ih (spelled_tail hs)
  | baseClass hn _ _ _ ih =>
    refine fun hs => ⟨not_isWord_head hs hn, fun ref he => ?_, ih (spelled_tail (spelled_tail hs))⟩
    cases he
  | derivedClass hn _ hsup _ _ _ ih =>
    intro hs
    have hs' := spelled_tail (spelled_tail hs)
    refine ⟨not_isWord_head hs hn, fun ref he => ?_, ih (spelled_tail (spelled_tail hs'))⟩
    cases he
    exact not_isWord_head hs' hsup
  | nextMethod _ _ h _ ih₁ ih₂ => exact fun hs => ⟨ih₁ hs, ih₂ (h.spelled_rest hs)⟩
  | function hn _ hp _ _ _ ih₁ ih₂ =>
    intro hs
    have hs' := spelled_tail (spelled_tail hs)
    exact ⟨not_isWord_head hs hn, ih₁ hs', ih₂ (spelled_tail (spelled_tail (hp.spelled_rest hs')))⟩
  | blockNext _ _ h _ ih₁ ih₂ | further _ h _ ih₁ ih₂ =>
    exact fun hs => ⟨ih₁ hs, ih₂ (h.spelled_rest hs)⟩
  | whileForm _ h _ ih₁ ih₂ =>
    exact fun hs => ⟨⟨ih₁ (spelled_tail hs), ih₂ (h.spelled_rest (spelled_tail hs))⟩, rfl⟩
  | blockForm _ _ ih => exact fun hs => ⟨ih (spelled_tail hs), rfl⟩
  | forStmt _ hi ht _ hu _ _ ih₁ ih₂ ih₃ ih₄ =>
    intro hs
    have hs₁ := hi.spelled_rest (spelled_tail hs)
    have hs₂ := spelled_tail (ht.spelled_rest hs₁)
    have hs₃ := spelled_tail (hu.spelled_rest hs₂)
    exact formed_forLoop (ih₁ (spelled_tail hs)) (ih₂ hs₁) (ih₃ hs₂) (ih₄ hs₃)
  | ifThen ht _ _ ih₁ ih₂ => exact fun hs => ⟨⟨ih₁ hs, ih₂ (ht.spelled_rest hs)⟩, rfl⟩
  | ifElse ht hy _ _ ih₁ ih₂ ih₃ =>
    intro hs
    have hs₁ := ht.spelled_rest hs
    exact ⟨⟨ih₁ hs, ih₂ hs₁, ih₃ (spelled_tail (hy.spelled_rest hs₁))⟩, rfl⟩

end Grammar

/-- The tree of a source without a fault is formed. -/
theorem Program.formed {source : String} (h : (Program.compile source).diagnostics = []) :
    Stmt.FormedAll (Program.compile source).statements := by
  have hp := (List.append_eq_nil_iff.1 h).2
  exact (Grammar.reads_of_parse hp).formed (spelled_scan source)

end Lox

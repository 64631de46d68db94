import Lox.Proofs.DebugReading
import Lox.Proofs.SourcePlaces
import Lox.Proofs.Spelling

/-!
# What a debug text says

The debug texts of the statements of a source determine the statements, but for the places of their
tokens: the texts determine the forms (`Debug.Form.text_append_inj`), and the statements can be read
back from these (`Debug.readStmts_ofStmts`).

Main statement: `Program.debug_determines`.
-/

namespace Lox

open Debug

/-! ## Trees of the grammar are unbound -/

namespace Grammar

/-- No reference in the tree of the phrase is bound. -/
def Phrase.Unbound : Phrase → Prop
  | .expression e | .operand _ e | .tighter _ e | .unary e | .primary e | .testInParens _ _ e =>
    Debug.Unbound e.references
  | .joined _ left e | .suffixes left e =>
    Debug.Unbound left.references → Debug.Unbound e.references
  | .arguments es | .moreArguments _ es => Debug.Unbound (Expr.referencesAll es)
  | .optionalExpression _ o => Debug.Unbound ((o.map (·.references)).getD [])
  | .varDecl stmt | .declaration stmt | .classDecl stmt | .expressionStmt stmt | .printStmt stmt
  | .returnStmt _ stmt | .statement stmt | .forStmt stmt | .ifStmt stmt =>
    Debug.Unbound stmt.references
  | .forInit o => ∀ stmt ∈ o, Debug.Unbound stmt.references
  | .moreParameters .. | .parameters _ => True
  | .methods ds => Debug.Unbound (FunDecl.referencesAll ds)
  | .function _ d => Debug.Unbound (FunDecl.references d)
  | .block body | .declarations body => Debug.Unbound (Stmt.referencesAll body)

theorem unbound_forLoop {init : Option Stmt} {test update : Option Expr} {body : Stmt}
    (hi : ∀ stmt ∈ init, Debug.Unbound stmt.references)
    (ht : Debug.Unbound ((test.map (·.references)).getD []))
    (hu : Debug.Unbound ((update.map (·.references)).getD []))
    (hb : Debug.Unbound body.references) :
    Debug.Unbound (Stmt.forLoop init test update body).references := by
  have htest : Debug.Unbound (test.getD (.literal (.bool true))).references := by
    cases test with
    | none => exact unbound_nil
    | some e => exact ht
  have hwhole {round : Stmt} (h : Debug.Unbound round.references) :
      Debug.Unbound (Stmt.loop (test.getD (.literal (.bool true))) round).references :=
    unbound_append.2 ⟨htest, h⟩
  have hround : ∀ e ∈ update, Debug.Unbound (Stmt.block [body, .expression e]).references := by
    rintro e rfl
    exact unbound_append.2 ⟨hb, unbound_append.2 ⟨hu, unbound_nil⟩⟩
  have hfirst {whole : Stmt} (h : Debug.Unbound whole.references) :
      ∀ s ∈ init, Debug.Unbound (Stmt.block [s, whole]).references :=
    fun s hs => unbound_append.2 ⟨hi s hs, unbound_append.2 ⟨h, unbound_nil⟩⟩
  cases init with
  | none =>
    cases update with
    | none => exact hwhole hb
    | some e => exact hwhole (hround e rfl)
  | some s =>
    cases update with
    | none => exact hfirst (hwhole hb) s rfl
    | some e => exact hfirst (hwhole (hround e rfl)) s rfl

theorem Reads.unbound {ph : Phrase} {ts rest : List Token} (h : Reads ph ts rest) : ph.Unbound := by
  induction h with
  | plain _ _ ih | descend _ _ ih | tightest _ _ ih | someArguments _ _ ih
  | expressionForm _ _ ih | statementForm _ _ ih | prefixed _ _ ih | property _ _ _ ih
  | group _ _ _ ih | testInParens _ _ _ ih | expressionStmt _ _ ih | printStmt _ _ ih
  | varInit _ _ _ _ ih | present _ _ ih | returnStmt _ _ ih | classForm _ _ ih | funForm _ _ ih
  | varForm _ _ ih | forForm _ _ ih | ifForm _ _ ih | printForm _ _ ih | returnForm _ _ ih
  | blockForm _ _ ih | baseClass _ _ _ _ ih => exact ih
  | joinedStop | suffixStop => exact id
  | noArguments | noMethods | blockEnd | finished | constant | absent | varPlain =>
    exact unbound_nil
  | initNone => exact nofun
  | someParameters | lastParameter | nextParameter | noParameters => trivial
  | name | thisWord | superWord => exact unbound_cons.2 ⟨rfl, unbound_nil⟩
  | assignName _ _ _ ih₁ ih₂ => exact unbound_cons.2 ⟨(unbound_cons.1 ih₁).1, ih₂⟩
  | derivedClass _ _ _ _ _ _ ih => exact unbound_cons.2 ⟨rfl, ih⟩
  | assignProperty _ _ _ ih₁ ih₂ | nextArgument _ _ _ _ ih₁ ih₂ | nextMethod _ _ _ _ ih₁ ih₂
  | blockNext _ _ _ _ ih₁ ih₂ | further _ _ _ ih₁ ih₂ | whileForm _ _ _ ih₁ ih₂
  | ifThen _ _ _ ih₁ ih₂ => exact unbound_append.2 ⟨ih₁, ih₂⟩
  | lastArgument _ _ _ ih => exact unbound_append.2 ⟨ih, unbound_nil⟩
  | operand _ _ ih₁ ih₂ | unprefixed _ _ _ ih₁ ih₂ => exact ih₂ ih₁
  | @joinedMore _ joint token _ _ _ _ _ _ _ _ _ ih₁ ih₂ =>
    intro hl
    refine ih₂ ?_
    cases joint <;> exact unbound_append.2 ⟨hl, ih₁⟩
  | call _ _ _ _ ih₁ ih₂ => exact fun hh => ih₂ (unbound_append.2 ⟨hh, ih₁⟩)
  | initVar _ _ ih | initExpression _ _ _ ih =>
    intro stmt hs
    cases hs
    exact ih
  | function _ _ _ _ _ _ _ ih => exact ih
  | forStmt _ _ _ _ _ _ _ ih₁ ih₂ ih₃ ih₄ => exact unbound_forLoop ih₁ ih₂ ih₃ ih₄
  | ifElse _ _ _ _ ih₁ ih₂ ih₃ =>
    exact unbound_append.2 ⟨unbound_append.2 ⟨ih₁, ih₂⟩, ih₃⟩

end Grammar

/-! ## Texts that determine trees -/

theorem Debug.eq_of_map_text : ∀ {fs fs' : List Form}, Form.ProperAll fs → Form.ProperAll fs' →
    fs.map Form.text = fs'.map Form.text → fs = fs'
  | [], [], _, _, _ => rfl
  | f :: fs, f' :: fs', h, h', he => by
    obtain ⟨hf, hfs⟩ := List.cons.inj he
    have hends : Ends [] := nofun
    have hsame : f = f' ∧ ([] : List Char) = [] :=
      Form.text_append_inj h.1 h'.1 hends hends (by rw [hf])
    rw [hsame.1, Debug.eq_of_map_text h.2 h'.2 hfs]

theorem Stmt.map_debug (ss : List Stmt) : ss.map Stmt.debug = Stmt.debugAll ss := by
  induction ss with
  | nil => rfl
  | cons s ss ih => rw [List.map_cons, ih, Stmt.debugAll]

/-- Complete statements of legible tokens are determined by their debug texts. -/
theorem Stmt.eq_of_debugAll {ss ss' : List Stmt} (hm : Stmt.MadeAll Token.Legible ss)
    (hm' : Stmt.MadeAll Token.Legible ss') (hu : Unbound (Stmt.referencesAll ss))
    (hu' : Unbound (Stmt.referencesAll ss')) (h : Stmt.debugAll ss = Stmt.debugAll ss') :
    Stmt.relabelAll .bare ss = Stmt.relabelAll .bare ss' := by
  have htexts := congrArg (List.map String.toList) h
  rw [Stmt.toList_debugAll, Stmt.toList_debugAll] at htexts
  have hforms := Debug.eq_of_map_text (proper_ofStmts ss hm) (proper_ofStmts ss' hm') htexts
  rw [← readStmts_ofStmts ss hm hu, ← readStmts_ofStmts ss' hm' hu', hforms]

/-- The constant is not an infinite number. -/
def Constant.isFinite : Constant → Bool
  | .number n => !n.isInfinite
  | .string _ | .bool _ | .nil => true

namespace Program

/-- None of the numbers in the source is read as infinite. -/
def FiniteNumbers (source : String) : Prop :=
  ∀ t ∈ (scan source).tokens, ∀ n, t.constant? = some (.number n) → n.isInfinite = false

theorem finiteNumbers_iff {source : String} :
    FiniteNumbers source ↔
      ∀ t ∈ (scan source).tokens, ∀ c ∈ t.constant?, c.isFinite = true := by
  constructor
  · intro h t ht c hc
    cases c with
    | number n => exact congrArg (!·) (h t ht n hc)
    | string | bool | nil => rfl
  · exact fun h t ht n hn => Bool.not_inj (h t ht _ hn)

instance (source : String) : Decidable (FiniteNumbers source) :=
  decidable_of_iff _ finiteNumbers_iff.symm

theorem made_of_finiteNumbers {source : String} (h : FiniteNumbers source) :
    Stmt.MadeAll Token.Legible (compile source).statements :=
  (Session.compile_points source).1.mono fun t ht => ⟨lexeme_of_mem_scan ht, h t ht⟩

theorem unbound {source : String} (h : (compile source).diagnostics = []) :
    Unbound (Stmt.referencesAll (compile source).statements) :=
  (Grammar.reads_of_parse (List.append_eq_nil_iff.1 h).2).unbound

/-- **The debug text determines the tree.** Take two sources that are compiled without a fault and in
which no number is read as infinite. Their statements have the same debug texts, in their order, just
if they are the same but for the places of their tokens. -/
theorem debug_determines {source source' : String} (hc : (compile source).diagnostics = [])
    (hc' : (compile source').diagnostics = []) (hf : FiniteNumbers source)
    (hf' : FiniteNumbers source') :
    (compile source).statements.map Stmt.debug = (compile source').statements.map Stmt.debug ↔
      Stmt.relabelAll .bare (compile source).statements =
        Stmt.relabelAll .bare (compile source').statements := by
  rw [Stmt.map_debug, Stmt.map_debug]
  constructor
  · exact Stmt.eq_of_debugAll (made_of_finiteNumbers hf) (made_of_finiteNumbers hf') (unbound hc)
      (unbound hc')
  · intro h
    rw [← Stmt.debugAll_bare (compile source).statements, h, Stmt.debugAll_bare]

/-- Two loops that are written in different ways, with a property of a number assigned to in them. -/
theorem debug_determines_of_loops :
    let source := "for (;;) 1.5.p = -x - \"a\";"
    let source' := "while (true)\n  1.50.p = - x - \"a\"; // again"
    ((compile source).diagnostics = [] ∧ (compile source').diagnostics = [] ∧
      FiniteNumbers source ∧ FiniteNumbers source') ∧
    Stmt.relabelAll .bare (compile source).statements =
      Stmt.relabelAll .bare (compile source').statements := by
  intro source source'
  have hc : (compile source).diagnostics = [] := by decide +kernel
  have hc' : (compile source').diagnostics = [] := by decide +kernel
  have hf : FiniteNumbers source := by decide +kernel
  have hf' : FiniteNumbers source' := by decide +kernel
  exact ⟨⟨hc, hc', hf, hf'⟩, (debug_determines hc hc' hf hf').1 (by decide +kernel)⟩

end Program

end Lox

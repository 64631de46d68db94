import Lox.Proofs.Bare
import Lox.Proofs.Forms
import Lox.Proofs.Making
import Lox.Proofs.NumberText

/-!
# The debug form of a tree

Every tree has a form, and its debug text is the text of that form (`Stmt.toList_debugAll`). The form
is a proper one (`Debug.proper_ofStmts`) if the tree is complete and its tokens are legible: they are
written as tokens of their kinds are, and spell finite numbers.
-/

namespace Lox

/-! ## Legible tokens -/

/-- The token is written as tokens of its kind are, and does not spell an infinite number. -/
structure Token.Legible (t : Token) : Prop where
  lexeme : Piece.Lexeme t.kind t.lexeme.toList
  finite : ∀ n, t.constant? = some (.number n) → n.isInfinite = false

/-- But for its place, a token of a kind with one spelling is always the same. -/
theorem Token.Legible.bare_eq {t u : Token} (h : t.Legible) (hk : t.kind = u.kind)
    (hs : u.kind.spelling? = some u.lexeme) : t.bare = u.bare := by
  have hlexeme := h.lexeme
  rw [hk] at hlexeme
  rw [bare, bare, hk, ← hlexeme.eq_spelling hs, String.ofList_toList]

namespace Debug

/-! ## Forms of trees -/

def word (w : String) : Form := ⟨.word w, []⟩

def node (head : String) (parts : List Form) : Form := ⟨.list "" head parts, []⟩

/-- The form with one more property name behind it. -/
def Form.dot (f : Form) (property : String) : Form := ⟨f.core, f.path ++ [property]⟩

/-- The name and the parameters of a function. -/
def heading (name : String) : List String → Form
  | [] => ⟨.list name "" [], []⟩
  | p :: ps => ⟨.list name p (ps.map word), []⟩

/-- The text of a number. What stands behind its point is put down as a property name. -/
def ofNumber (text : List Char) : Form :=
  ⟨.word (String.ofList (text.takeWhile (· != '.'))),
    match text.dropWhile (· != '.') with
    | [] => []
    | _ :: fraction => [String.ofList fraction]⟩

def ofConstant : Constant → Form
  | .string s => ⟨.quoted s, []⟩
  | .number n => ofNumber n.text.toList
  | c => word c.text

mutual

def ofExpr : Expr → Form
  | .literal c => ofConstant c
  | .group inner => node "group" [ofExpr inner]
  | .unary op _ right => node op.symbol [ofExpr right]
  | .binary op _ left right => node op.symbol [ofExpr left, ofExpr right]
  | .logical op _ left right => node op.symbol [ofExpr left, ofExpr right]
  | .name ref => word ref.name
  | .assign ref value => node "=" [word ref.name, ofExpr value]
  | .call callee _ args => node "call" (ofExpr callee :: ofExprs args)
  | .get object property => node "." [ofExpr object, word property.lexeme]
  | .set object property value => node "=" [Form.dot (ofExpr object) property.lexeme, ofExpr value]
  | .thisRef _ => word "this"
  | .superRef _ method => Form.dot (word "super") method.lexeme

def ofExprs : List Expr → List Form
  | [] => []
  | e :: es => ofExpr e :: ofExprs es

end

mutual

def ofStmt : Stmt → Form
  | .expression e => node ";" [ofExpr e]
  | .print e => node "print" [ofExpr e]
  | .var name none => node "var" [word name.lexeme]
  | .var name (some init) => node "var" [word name.lexeme, word "=", ofExpr init]
  | .block body => node "block" (ofStmts body)
  | .ifThen test yes => node "if" [ofExpr test, ofStmt yes]
  | .ifElse test yes no => node "if-else" [ofExpr test, ofStmt yes, ofStmt no]
  | .loop test body => node "while" [ofExpr test, ofStmt body]
  | .function decl => ofFunction decl
  | .ret _ none => node "return" []
  | .ret _ (some value) => node "return" [ofExpr value]
  | .classDecl name none methods => node "class" (word name.lexeme :: ofFunctions methods)
  | .classDecl name (some ref) methods =>
    node "class" (word name.lexeme :: word "<" :: word ref.name :: ofFunctions methods)

def ofStmts : List Stmt → List Form
  | [] => []
  | s :: ss => ofStmt s :: ofStmts ss

def ofFunction : FunDecl Stmt → Form
  | ⟨name, params, body⟩ =>
    node "fun" (heading name.lexeme (params.map (·.lexeme)) :: ofStmts body)

def ofFunctions : List (FunDecl Stmt) → List Form
  | [] => []
  | d :: ds => ofFunction d :: ofFunctions ds

end

/-! ## Debug texts are texts of forms -/

theorem spaced_eq (fs : List Form) : Form.spaced fs = fs.flatMap fun f => ' ' :: Form.text f := by
  induction fs with
  | nil => rfl
  | cons f fs ih => rw [Form.spaced, ih, List.flatMap_cons, List.cons_append]

theorem toList_intercalate_cons (part : String) (parts : List String) :
    (" ".intercalate (part :: parts)).toList =
      part.toList ++ parts.flatMap fun p => ' ' :: p.toList := by
  rw [String.toList_intercalate, List.map_cons]
  induction parts generalizing part with
  | nil => simp
  | cons p ps ih =>
    rw [List.map_cons, List.intercalate_cons_cons, ih, List.flatMap_cons, List.append_assoc]
    rfl

theorem text_word (w : String) : Form.text (word w) = w.toList := by
  simp [word, Form.text, Core.front, Core.back, pathText]

theorem text_dot (f : Form) (property : String) :
    Form.text (Form.dot f property) = Form.text f ++ '.' :: property.toList := by
  cases f
  simp [Form.dot, Form.text, pathText]

theorem text_node {head : String} {parts : List String} {fs : List Form} (hne : parts ≠ [])
    (h : parts.map String.toList = fs.map Form.text) :
    (form head parts).toList = Form.text (node head fs) := by
  have hspaced : parts.flatMap (fun p => ' ' :: p.toList) = Form.spaced fs := by
    rw [spaced_eq, ← List.flatMap_map String.toList (' ' :: ·), h, List.flatMap_map]
  obtain ⟨part, parts, rfl⟩ := List.exists_cons_of_ne_nil hne
  simp only [form, String.toList_append, toList_intercalate_cons]
  rw [node, Form.text, Core.front, Core.back, ← hspaced]
  simp [pathText]

theorem text_heading (name : String) (params : List String) :
    Form.text (heading name params) = (name ++ "(" ++ " ".intercalate params ++ ")").toList := by
  cases params with
  | nil => simp [heading, Form.text, Core.front, Core.back, Form.spaced, pathText]
  | cons p ps =>
    have hspaced : Form.spaced (ps.map word) = ps.flatMap fun p => ' ' :: p.toList := by
      rw [spaced_eq, List.flatMap_map]
      simp only [text_word]
    simp only [String.toList_append, toList_intercalate_cons, heading, Form.text, Core.front,
      Core.back, hspaced]
    simp [pathText]

theorem text_ofNumber (text : List Char) : Form.text (ofNumber text) = text := by
  have hsplit := List.takeWhile_append_dropWhile (p := (· != '.')) (l := text)
  unfold ofNumber
  split
  · rename_i hd
    rw [hd] at hsplit
    simpa [Form.text, Core.front, Core.back, pathText] using hsplit
  · rename_i point fraction hd
    have hpoint := Piece.stops_dropWhile (· != '.') text point (by rw [hd]; rfl)
    have hp : point = '.' := by simpa using hpoint
    rw [hd, hp] at hsplit
    simpa [Form.text, Core.front, Core.back, pathText] using hsplit

theorem text_ofConstant (c : Constant) : Form.text (ofConstant c) = c.debug.toList := by
  cases c with
  | string s => simp [ofConstant, Constant.debug, Form.text, Core.front, Core.back, pathText]
  | number n => exact text_ofNumber _
  | nil | bool => exact text_word _

end Debug

open Debug

mutual

theorem Expr.toList_debug : ∀ e : Expr, e.debug.toList = Form.text (ofExpr e)
  | .literal c => (text_ofConstant c).symm
  | .group inner => text_node (by simp) (by simp [Expr.toList_debug inner])
  | .unary _ _ right => text_node (by simp) (by simp [Expr.toList_debug right])
  | .binary _ _ left right =>
    text_node (by simp) (by simp [Expr.toList_debug left, Expr.toList_debug right])
  | .logical _ _ left right =>
    text_node (by simp) (by simp [Expr.toList_debug left, Expr.toList_debug right])
  | .name _ => (text_word _).symm
  | .assign _ value => text_node (by simp) (by simp [text_word, Expr.toList_debug value])
  | .call callee _ args =>
    text_node (by simp) (by simp [Expr.toList_debug callee, Expr.toList_debugAll args])
  | .get object _ => text_node (by simp) (by simp [text_word, Expr.toList_debug object])
  | .set object _ value =>
    text_node (by simp)
      (by simp [text_dot, Expr.toList_debug object, Expr.toList_debug value])
  | .thisRef _ => (text_word _).symm
  | .superRef _ _ => by
    rw [Expr.debug, ofExpr, text_dot, text_word, String.toList_append]
    rfl

theorem Expr.toList_debugAll : ∀ es : List Expr,
    (Expr.debugAll es).map String.toList = (ofExprs es).map Form.text
  | [] => rfl
  | e :: es => congrArg₂ List.cons (Expr.toList_debug e) (Expr.toList_debugAll es)

end

mutual

theorem Stmt.toList_debug : ∀ s : Stmt, s.debug.toList = Form.text (ofStmt s)
  | .expression e => text_node (by simp) (by simp [e.toList_debug])
  | .print e => text_node (by simp) (by simp [e.toList_debug])
  | .var _ none => text_node (by simp) (by simp [text_word])
  | .var _ (some init) => text_node (by simp) (by simp [text_word, init.toList_debug])
  | .block [] => rfl
  | .block (s :: body) =>
    text_node (by simp) (by simp [ofStmts, Stmt.toList_debug s, Stmt.toList_debugAll body])
  | .ifThen test yes => text_node (by simp) (by simp [test.toList_debug, Stmt.toList_debug yes])
  | .ifElse test yes no =>
    text_node (by simp)
      (by simp [test.toList_debug, Stmt.toList_debug yes, Stmt.toList_debug no])
  | .loop test body => text_node (by simp) (by simp [test.toList_debug, Stmt.toList_debug body])
  | .function decl => FunDecl.toList_debug decl
  | .ret _ none => by
    rw [Stmt.debug, ofStmt]
    rfl
  | .ret _ (some value) => text_node (by simp) (by simp [value.toList_debug])
  | .classDecl _ none methods =>
    text_node (by simp) (by simp [text_word, FunDecl.toList_debugAll methods])
  | .classDecl _ (some _) methods =>
    text_node (by simp) (by simp [text_word, FunDecl.toList_debugAll methods])

/-- **The debug texts of statements are the texts of their forms.** -/
theorem Stmt.toList_debugAll : ∀ ss : List Stmt,
    (Stmt.debugAll ss).map String.toList = (ofStmts ss).map Form.text
  | [] => rfl
  | s :: ss => congrArg₂ List.cons (Stmt.toList_debug s) (Stmt.toList_debugAll ss)

theorem FunDecl.toList_debug : ∀ d : FunDecl Stmt,
    (FunDecl.debug d).toList = Form.text (ofFunction d)
  | ⟨_, _, body⟩ => text_node (by simp) (by simp [text_heading, Stmt.toList_debugAll body])

theorem FunDecl.toList_debugAll : ∀ ds : List (FunDecl Stmt),
    (FunDecl.debugAll ds).map String.toList = (ofFunctions ds).map Form.text
  | [] => rfl
  | d :: ds => congrArg₂ List.cons (FunDecl.toList_debug d) (FunDecl.toList_debugAll ds)

end

namespace Debug

/-! ## Proper forms -/

theorem isPlain_of_isWordPart {a : Char} (h : Piece.isWordPart a = true) : isPlain a = true := by
  have hne : ∀ b : Char, Piece.isWordPart b = false → a ≠ b := by
    rintro b hb rfl
    rw [hb] at h
    cases h
  simp [isPlain, hne ' ' rfl, hne '(' rfl, hne ')' rfl, hne '.' rfl, hne '"' rfl]

theorem isPlain_of_isDigit {a : Char} (h : a.isDigit = true) : isPlain a = true :=
  isPlain_of_isWordPart (by simp [Piece.isWordPart, Char.isAlphanum, h])

theorem plain_of_isName {w : String} (h : Piece.isName w.toList = true) : Plain w := by
  obtain ⟨c, cs, hw, hc, hcs, -⟩ := Piece.isName_parts h
  have hc' : Piece.isWordPart c = true := by
    simp only [Piece.isWordStart, Bool.or_eq_true] at hc
    simp only [Piece.isWordPart, Char.isAlphanum, Bool.or_eq_true]
    tauto
  rw [Plain, hw]
  exact List.forall_mem_cons.2 ⟨isPlain_of_isWordPart hc',
    fun a ha => isPlain_of_isWordPart (hcs a ha)⟩

theorem proper_word {w : String} (h : Plain w) : Form.Proper (word w) := ⟨h, nofun⟩

theorem proper_node {head : String} {parts : List Form} (hh : IsHead head)
    (hp : Form.ProperAll parts) : Form.Proper (node head parts) :=
  ⟨⟨nofun, hh, hp⟩, nofun⟩

theorem proper_dot {f : Form} {property : String} (hf : Form.Proper f) (hp : Plain property) :
    Form.Proper (Form.dot f property) := by
  cases f
  exact ⟨hf.1, List.forall_mem_append.2 ⟨hf.2, List.forall_mem_singleton.2 hp⟩⟩

theorem proper_heading {n : String} {params : List String} (hn : Plain n)
    (hp : ∀ p ∈ params, Plain p) : Form.Proper (heading n params) := by
  have hwords : ∀ ps : List String, (∀ p ∈ ps, Plain p) → Form.ProperAll (ps.map word) := by
    intro ps hps
    induction ps with
    | nil => trivial
    | cons p ps ih =>
      exact ⟨proper_word (hps p List.mem_cons_self), ih fun q hq => hps q (List.mem_cons_of_mem _ hq)⟩
  cases params with
  | nil => exact ⟨⟨hn, nofun, trivial⟩, nofun⟩
  | cons p ps =>
    have hhead : IsHead p := by
      intro a ha
      have hplain := hp p List.mem_cons_self a ha
      simp only [isPlain, isHead, Bool.and_eq_true] at hplain ⊢
      exact ⟨hplain.1.1.1.1, hplain.1.1.2⟩
    exact ⟨⟨hn, hhead, hwords ps fun q hq => hp q (List.mem_cons_of_mem _ hq)⟩, nofun⟩

theorem proper_ofNumber {text : List Char} (h : Piece.Lexeme .number text) :
    Form.Proper (ofNumber text) := by
  have hplain : ∀ {ds : List Char}, (∀ a ∈ ds, a.isDigit = true) → Plain (String.ofList ds) := by
    intro ds hds a ha
    rw [String.toList_ofList] at ha
    exact isPlain_of_isDigit (hds a ha)
  obtain ⟨d, ds, hd, hds, rfl | ⟨fs, hfs, rfl⟩⟩ := h.digits
  all_goals
    have hall : ∀ a ∈ d :: ds, a.isDigit = true := List.forall_mem_cons.2 ⟨hd, hds⟩
    have hpoint := Number.ne_point_of_mem hall
  · rw [ofNumber, List.takeWhile_eq_self_iff.2 hpoint, List.dropWhile_eq_nil_iff.2 hpoint]
    exact proper_word (hplain hall)
  · rw [ofNumber, List.takeWhile_append_of_pos hpoint, List.dropWhile_append_of_pos hpoint,
      List.takeWhile_cons_of_neg (by decide), List.dropWhile_cons_of_neg (by decide),
      List.append_nil]
    exact ⟨hplain hall, List.forall_mem_singleton.2 (hplain hfs)⟩

theorem isHead_unary (op : UnaryOp) : IsHead op.symbol := by
  cases op <;> decide

theorem isHead_binary (op : BinaryOp) : IsHead op.symbol := by
  cases op <;> decide

theorem isHead_logical (op : LogicalOp) : IsHead op.symbol := by
  cases op <;> decide

section
variable {t : Token}

theorem isName_of_from (h : t.From Token.Legible .identifier) :
    Piece.isName t.lexeme.toList = true := by
  have hlexeme := h.1.lexeme
  rw [h.2] at hlexeme
  exact hlexeme.isName

theorem plain_of_from (h : t.From Token.Legible .identifier) : Plain t.lexeme :=
  plain_of_isName (isName_of_from h)

end

/-- The text of a number that is spelled by a token spells the number. -/
theorem text_of_made {n : Number} (h : (Constant.number n).Made Token.Legible) :
    Piece.Lexeme .number n.text.toList ∧ Number.ofLiteral n.text.toList = n := by
  rcases h with ⟨t, ht, hc⟩ | hb
  · have hliteral : n = Number.ofLiteral t.lexeme.toList := by
      unfold Token.constant? at hc
      split at hc <;> simp only [Option.some.injEq, Constant.number.injEq, reduceCtorEq] at hc
      exact hc.symm
    exact Number.ofLiteral_text hliteral (ht.finite n hc)
  · cases hb

theorem proper_ofConstant {c : Constant} (h : c.Made Token.Legible) :
    Form.Proper (ofConstant c) := by
  cases c with
  | string s => exact ⟨trivial, nofun⟩
  | nil => exact proper_word (by decide)
  | bool b => cases b <;> exact proper_word (by decide)
  | number n => exact proper_ofNumber (text_of_made h).1

mutual

theorem proper_ofExpr : ∀ e : Expr, e.Made Token.Legible → Form.Proper (ofExpr e)
  | .literal _, h => proper_ofConstant h
  | .group inner, h => proper_node (by decide) ⟨proper_ofExpr inner h, trivial⟩
  | .unary op _ right, h => proper_node (isHead_unary op) ⟨proper_ofExpr right h.2, trivial⟩
  | .binary op _ left right, h =>
    proper_node (isHead_binary op) ⟨proper_ofExpr left h.2.1, proper_ofExpr right h.2.2, trivial⟩
  | .logical op _ left right, h =>
    proper_node (isHead_logical op) ⟨proper_ofExpr left h.2.1, proper_ofExpr right h.2.2, trivial⟩
  | .name _, h => proper_word (plain_of_from h)
  | .assign _ value, h =>
    proper_node (by decide) ⟨proper_word (plain_of_from h.1), proper_ofExpr value h.2, trivial⟩
  | .call callee _ args, h =>
    proper_node (by decide) ⟨proper_ofExpr callee h.1, proper_ofExprs args h.2.2⟩
  | .get object _, h =>
    proper_node (by decide)
      ⟨proper_ofExpr object h.1, proper_word (plain_of_from h.2), trivial⟩
  | .set object _ value, h =>
    proper_node (by decide) ⟨proper_dot (proper_ofExpr object h.1) (plain_of_from h.2.1),
      proper_ofExpr value h.2.2, trivial⟩
  | .thisRef _, _ => proper_word (by decide)
  | .superRef _ _, h => proper_dot (proper_word (by decide)) (plain_of_from h.2)

theorem proper_ofExprs : ∀ es : List Expr, Expr.MadeAll Token.Legible es →
    Form.ProperAll (ofExprs es)
  | [], _ => trivial
  | e :: es, h => ⟨proper_ofExpr e h.1, proper_ofExprs es h.2⟩

end

mutual

theorem proper_ofStmt : ∀ s : Stmt, s.Made Token.Legible → Form.Proper (ofStmt s)
  | .expression e, h => proper_node (by decide) ⟨proper_ofExpr e h, trivial⟩
  | .print e, h => proper_node (by decide) ⟨proper_ofExpr e h, trivial⟩
  | .var _ none, h => proper_node (by decide) ⟨proper_word (plain_of_from h.1), trivial⟩
  | .var _ (some init), h =>
    proper_node (by decide) ⟨proper_word (plain_of_from h.1), proper_word (by decide),
      proper_ofExpr init (h.2 init rfl), trivial⟩
  | .block body, h => proper_node (by decide) (proper_ofStmts body h)
  | .ifThen test yes, h =>
    proper_node (by decide) ⟨proper_ofExpr test h.1, proper_ofStmt yes h.2, trivial⟩
  | .ifElse test yes no, h =>
    proper_node (by decide) ⟨proper_ofExpr test h.1, proper_ofStmt yes h.2.1,
      proper_ofStmt no h.2.2, trivial⟩
  | .loop test body, h =>
    proper_node (by decide) ⟨proper_ofExpr test h.1, proper_ofStmt body h.2, trivial⟩
  | .function decl, h => proper_ofFunction decl h
  | .ret _ none, _ => proper_node (by decide) trivial
  | .ret _ (some value), h =>
    proper_node (by decide) ⟨proper_ofExpr value (h.2 value rfl), trivial⟩
  | .classDecl _ none methods, h =>
    proper_node (by decide) ⟨proper_word (plain_of_from h.1), proper_ofFunctions methods h.2.2⟩
  | .classDecl _ (some ref) methods, h =>
    proper_node (by decide) ⟨proper_word (plain_of_from h.1), proper_word (by decide),
      proper_word (plain_of_from (h.2.1 ref rfl)), proper_ofFunctions methods h.2.2⟩

theorem proper_ofStmts : ∀ ss : List Stmt, Stmt.MadeAll Token.Legible ss →
    Form.ProperAll (ofStmts ss)
  | [], _ => trivial
  | s :: ss, h => ⟨proper_ofStmt s h.1, proper_ofStmts ss h.2⟩

theorem proper_ofFunction : ∀ d : FunDecl Stmt, FunDecl.Made Token.Legible d →
    Form.Proper (ofFunction d)
  | ⟨_, params, body⟩, h => by
    have hparams : ∀ p ∈ params.map (·.lexeme), Plain p :=
      List.forall_mem_map.2 fun p hp => plain_of_from (h.2.1 p hp)
    exact proper_node (by decide)
      ⟨proper_heading (plain_of_from h.1) hparams, proper_ofStmts body h.2.2⟩

theorem proper_ofFunctions : ∀ ds : List (FunDecl Stmt), FunDecl.MadeAll Token.Legible ds →
    Form.ProperAll (ofFunctions ds)
  | [], _ => trivial
  | d :: ds, h => ⟨proper_ofFunction d h.1, proper_ofFunctions ds h.2⟩

end

end Debug

end Lox

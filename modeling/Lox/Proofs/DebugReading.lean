import Lox.Proofs.DebugTrees

/-!
# Trees read back from forms

A form is read as the tree that it is the form of. Words are looked up as the scanner does, after
those that begin with a digit; a list is put together from its head and its parts. What is the form
of no tree is read as anything. The complete tree of legible tokens, none of them bound to a scope,
is read back from its form but for the places of its tokens (`Debug.readStmts_ofStmts`).
-/

namespace Lox

namespace Debug

/-! ## Operators -/

def unaryToken : UnaryOp → Token
  | .not => ⟨.bang, "!", 0, 0⟩
  | .negate => ⟨.minus, "-", 0, 0⟩

def unary? (symbol : String) : Option UnaryOp :=
  [UnaryOp.not, .negate].find? (·.symbol == symbol)

def jointToken : Grammar.Joint → Token
  | .logical .and => ⟨.kwAnd, "and", 0, 0⟩
  | .logical .or => ⟨.kwOr, "or", 0, 0⟩
  | .binary .add => ⟨.plus, "+", 0, 0⟩
  | .binary .sub => ⟨.minus, "-", 0, 0⟩
  | .binary .mul => ⟨.star, "*", 0, 0⟩
  | .binary .div => ⟨.slash, "/", 0, 0⟩
  | .binary .equal => ⟨.equalEqual, "==", 0, 0⟩
  | .binary .notEqual => ⟨.bangEqual, "!=", 0, 0⟩
  | .binary .less => ⟨.less, "<", 0, 0⟩
  | .binary .lessEqual => ⟨.lessEqual, "<=", 0, 0⟩
  | .binary .greater => ⟨.greater, ">", 0, 0⟩
  | .binary .greaterEqual => ⟨.greaterEqual, ">=", 0, 0⟩

def joint? (symbol : String) : Option Grammar.Joint :=
  [.logical .and, .logical .or, .binary .add, .binary .sub, .binary .mul, .binary .div,
    .binary .equal, .binary .notEqual, .binary .less, .binary .lessEqual, .binary .greater,
    .binary .greaterEqual].find? fun joint => (jointToken joint).lexeme == symbol

/-! ## Trees of forms -/

def name (w : String) : Token := ⟨.identifier, w, 0, 0⟩

def thisWord : Token := ⟨.kwThis, "this", 0, 0⟩

def superWord : Token := ⟨.kwSuper, "super", 0, 0⟩

def returnWord : Token := ⟨.kwReturn, "return", 0, 0⟩

def closeParen : Token := ⟨.rightParen, ")", 0, 0⟩

/-- What a word is as an expression. A number has its fraction behind it. -/
def readWord (w : String) (path : List String) : Expr :=
  if w.toList.head?.any Char.isDigit then
    .literal (.number (Number.ofLiteral (w.toList ++ pathText path)))
  else
    match TokenKind.ofWord w.toList with
    | .kwNil => .literal .nil
    | .kwTrue => .literal (.bool true)
    | .kwFalse => .literal (.bool false)
    | .kwThis => .thisRef ⟨thisWord, none⟩
    | .kwSuper => .superRef ⟨superWord, none⟩ (name (path.headD ""))
    | _ => .name ⟨name w, none⟩

/-- The expression of a list, from its head and its parts. `operands` are the parts as expressions,
and `owner` is the first one without its last property name. -/
def assemble (head : String) (parts : List Form) (owner : Expr) (operands : List Expr) : Expr :=
  match head, parts, operands with
  | "group", _, [e] => .group e
  | "call", _, callee :: args => .call callee closeParen args
  | ".", [_, property], [object, _] => .get object (name property.core.front)
  | "=", [target, _], [_, value] =>
    match target.path.getLast? with
    | none => .assign ⟨name target.core.front, none⟩ value
    | some property => .set owner (name property) value
  | symbol, _, [e] => ((unary? symbol).map fun op => .unary op (unaryToken op) e).getD e
  | symbol, _, [left, right] =>
    ((joint? symbol).map fun joint => joint.join (jointToken joint) left right).getD left
  | _, _, _ => .literal .nil

mutual

def readCore : Core → List String → Expr
  | .word w, path => readWord w path
  | .quoted s, _ => .literal (.string s)
  | .list _ head parts, _ => assemble head parts (readOwner parts) (readForms parts)

/-- The first form without its last property name. -/
def readOwner : List Form → Expr
  | [] => .literal .nil
  | ⟨core, path⟩ :: _ => readCore core path.dropLast

def readForms : List Form → List Expr
  | [] => []
  | ⟨core, path⟩ :: fs => readCore core path :: readForms fs

end

def readForm (f : Form) : Expr := readCore f.core f.path

theorem readForms_cons (f : Form) (fs : List Form) :
    readForms (f :: fs) = readForm f :: readForms fs := rfl

theorem assemble_set {target value : Form} {property : String} {owner e e' : Expr}
    (h : target.path.getLast? = some property) :
    assemble "=" [target, value] owner [e, e'] = .set owner (name property) e' := by
  change (match target.path.getLast? with
    | none => _
    | some property => Expr.set owner (name property) e') = _
  rw [h]

theorem readForm_node (head : String) (parts : List Form) :
    readForm (node head parts) = assemble head parts (readOwner parts) (readForms parts) := rfl

/-- The parameters in the heading of a function. -/
def readParams : Core → List Token
  | .list _ param params =>
    if param = "" then [] else name param :: params.map (name ·.core.front)
  | _ => []

/-- The superclass, if the name of the class has a word and another one behind it. -/
def readSuperclass : List Form → Option Reference
  | ⟨.word _, _⟩ :: ref :: _ => some ⟨name ref.core.front, none⟩
  | _ => none

def functions (stmts : List Stmt) : List (FunDecl Stmt) :=
  stmts.filterMap fun
    | .function d => some d
    | _ => none

/-- What the statement of a form is, from its head, its parts and these as statements. -/
def assembleStmt (head : String) (parts : List Form) (stmts : List Stmt) : Stmt :=
  match head, parts, stmts with
  | ";", [e], _ => .expression (readForm e)
  | "print", [e], _ => .print (readForm e)
  | "var", [n], _ => .var (name n.core.front) none
  | "var", [n, _, init], _ => .var (name n.core.front) (some (readForm init))
  | "if", [test, _], [_, yes] => .ifThen (readForm test) yes
  | "if-else", [test, _, _], [_, yes, no] => .ifElse (readForm test) yes no
  | "while", [test, _], [_, body] => .loop (readForm test) body
  | "fun", heading :: _, _ :: body =>
    .function ⟨name heading.core.front, readParams heading.core, body⟩
  | "return", [], _ => .ret returnWord none
  | "return", [value], _ => .ret returnWord (some (readForm value))
  | "class", n :: parts, _ :: stmts =>
    .classDecl (name n.core.front) (readSuperclass parts) (functions stmts)
  | "block", _, body => .block body
  | _, _, _ => .block []

mutual

def readStmtCore : Core → Stmt
  | .list _ head parts => assembleStmt head parts (readStmts parts)
  | _ => .block []

def readStmts : List Form → List Stmt
  | [] => []
  | ⟨core, _⟩ :: fs => readStmtCore core :: readStmts fs

end

def readStmt (f : Form) : Stmt := readStmtCore f.core

theorem readStmt_node (head : String) (parts : List Form) :
    readStmt (node head parts) = assembleStmt head parts (readStmts parts) := rfl

theorem readStmts_cons (f : Form) (fs : List Form) :
    readStmts (f :: fs) = readStmt f :: readStmts fs := rfl

theorem front_heading (n : String) (params : List String) : (heading n params).core.front = n := by
  cases params <;> rfl

theorem assembleStmt_fun (heading : Form) (parts : List Form) (s : Stmt) (body : List Stmt) :
    assembleStmt "fun" (heading :: parts) (s :: body) =
      .function ⟨name heading.core.front, readParams heading.core, body⟩ := rfl

theorem assembleStmt_class (n : Form) (parts : List Form) (s : Stmt) (stmts : List Stmt) :
    assembleStmt "class" (n :: parts) (s :: stmts) =
      .classDecl (name n.core.front) (readSuperclass parts) (functions stmts) := rfl

theorem readSuperclass_ofFunctions (ds : List (FunDecl Stmt)) :
    readSuperclass (ofFunctions ds) = none := by
  cases ds with
  | nil => rfl
  | cons d ds => cases d; rfl

theorem functions_map (ds : List (FunDecl Stmt)) : functions (ds.map .function) = ds := by
  rw [functions, List.filterMap_map]
  exact List.filterMap_some

/-! ## Trees read back -/

/-- None of the references is bound to a scope yet. -/
def Unbound (refs : List (Use × Reference)) : Prop := ∀ r ∈ refs, r.2.hops = none

theorem unbound_nil : Unbound [] := List.forall_mem_nil _

theorem unbound_append {refs refs' : List (Use × Reference)} :
    Unbound (refs ++ refs') ↔ Unbound refs ∧ Unbound refs' := List.forall_mem_append

theorem unbound_cons {r : Use × Reference} {refs : List (Use × Reference)} :
    Unbound (r :: refs) ↔ r.2.hops = none ∧ Unbound refs := List.forall_mem_cons

theorem readForm_ofNumber {text : List Char} (h : Piece.Lexeme .number text) :
    readForm (ofNumber text) = .literal (.number (Number.ofLiteral text)) := by
  have htext := text_ofNumber text
  have hfront : (text.takeWhile (· != '.')).head?.any Char.isDigit = true := by
    obtain ⟨d, ds, hd, -, rfl | ⟨fs, -, rfl⟩⟩ := h.digits
    all_goals
      have hpoint : (d != '.') = true := Number.ne_point_of_mem (List.forall_mem_singleton.2 hd) d
        List.mem_cons_self
      simp [hpoint, hd]
  change (String.ofList (text.takeWhile (· != '.'))).toList ++ pathText (ofNumber text).path = _
    at htext
  change readWord (String.ofList (text.takeWhile (· != '.'))) (ofNumber text).path = _
  rw [readWord, htext, String.toList_ofList, if_pos hfront]

theorem readForm_ofConstant {c : Constant} (h : c.Made Token.Legible) :
    readForm (ofConstant c) = .literal c := by
  cases c with
  | string s => rfl
  | nil => rfl
  | bool b => cases b <;> rfl
  | number n =>
    obtain ⟨hlexeme, hread⟩ := text_of_made h
    rw [ofConstant, readForm_ofNumber hlexeme, hread]

theorem bare_of_from {t : Token} (h : t.From Token.Legible .identifier) : t.bare = name t.lexeme := by
  rw [Token.bare, h.2, name]

theorem readForm_name {t : Token} (h : t.From Token.Legible .identifier) :
    readForm (word t.lexeme) = .name ⟨t.bare, none⟩ := by
  obtain ⟨c, cs, hw, hc, -, hk⟩ := Piece.isName_parts (isName_of_from h)
  have hdigit : t.lexeme.toList.head?.any Char.isDigit = false := by
    rw [hw]
    exact Piece.not_isDigit_of_isWordStart hc
  change readWord t.lexeme [] = _
  rw [readWord, hdigit, hk, bare_of_from h]
  rfl

theorem bare_unary {op : UnaryOp} {t : Token} (ht : t.Legible)
    (hop : Grammar.unaryOp? t.kind = some op) : t.bare = unaryToken op := by
  have hk : t.kind = (unaryToken op).kind := by
    unfold Grammar.unaryOp? at hop
    split at hop <;> cases hop <;> assumption
  rw [ht.bare_eq hk (by cases op <;> rfl)]
  cases op <;> rfl

theorem bare_joint {joint : Grammar.Joint} {t : Token} (h : joint.From Token.Legible t) :
    t.bare = jointToken joint := by
  obtain ⟨ht, level, hjoint⟩ := h
  have hk : t.kind = (jointToken joint).kind := by
    unfold Grammar.Level.joint? at hjoint
    split at hjoint <;> cases hjoint <;> assumption
  rw [ht.bare_eq hk (by rcases joint with op | op <;> cases op <;> rfl)]
  rcases joint with op | op <;> cases op <;> rfl

mutual

theorem readForm_ofExpr : ∀ e : Expr, e.Made Token.Legible → Unbound e.references →
    readForm (ofExpr e) = e.relabel .bare
  | .literal _, h, _ => readForm_ofConstant h
  | .group inner, h, hu => by
    rw [ofExpr, readForm_node, readForms_cons, readForm_ofExpr inner h hu]
    rfl
  | .unary op token right, h, hu => by
    rw [ofExpr, readForm_node, readForms_cons, readForm_ofExpr right h.2 hu, Expr.relabel,
      bare_unary h.1.1 h.1.2]
    cases op <;> rfl
  | .binary op token left right, h, hu => by
    obtain ⟨hl, hr⟩ := unbound_append.1 hu
    rw [ofExpr, readForm_node, readForms_cons, readForms_cons, readForm_ofExpr left h.2.1 hl,
      readForm_ofExpr right h.2.2 hr, Expr.relabel, bare_joint h.1]
    cases op <;> rfl
  | .logical op token left right, h, hu => by
    obtain ⟨hl, hr⟩ := unbound_append.1 hu
    rw [ofExpr, readForm_node, readForms_cons, readForms_cons, readForm_ofExpr left h.2.1 hl,
      readForm_ofExpr right h.2.2 hr, Expr.relabel, bare_joint h.1]
    cases op <;> rfl
  | .name ⟨token, hops⟩, h, hu => by
    obtain rfl : hops = none := hu _ List.mem_cons_self
    exact readForm_name h
  | .assign ⟨token, hops⟩ value, h, hu => by
    obtain ⟨hhops, hvalue⟩ := unbound_cons.1 hu
    obtain rfl : hops = none := hhops
    rw [ofExpr, readForm_node, readForms_cons, readForms_cons, readForm_ofExpr value h.2 hvalue,
      Expr.relabel, Reference.relabel, bare_of_from h.1]
    rfl
  | .call callee paren args, h, hu => by
    obtain ⟨hc, ha⟩ := unbound_append.1 hu
    rw [ofExpr, readForm_node, readForms_cons, readForm_ofExpr callee h.1 hc,
      readForms_ofExprs args h.2.2 ha, Expr.relabel,
      h.2.1.1.bare_eq (u := closeParen) h.2.1.2 rfl]
    rfl
  | .get object property, h, hu => by
    rw [ofExpr, readForm_node, readForms_cons, readForms_cons, readForm_ofExpr object h.1 hu,
      Expr.relabel, bare_of_from h.2]
    rfl
  | .set object property value, h, hu => by
    obtain ⟨ho, hv⟩ := unbound_append.1 hu
    have howner : readOwner [Form.dot (ofExpr object) property.lexeme, ofExpr value] =
        object.relabel .bare := by
      rw [← readForm_ofExpr object h.1 ho, Form.dot, readOwner, List.dropLast_concat]
      rfl
    rw [ofExpr, readForm_node, readForms_cons, readForms_cons, readForm_ofExpr value h.2.2 hv,
      howner, Expr.relabel, bare_of_from h.2.1]
    exact assemble_set List.getLast?_concat
  | .thisRef ⟨token, hops⟩, h, hu => by
    obtain rfl : hops = none := hu _ List.mem_cons_self
    rw [Expr.relabel, Reference.relabel, h.1.bare_eq (u := thisWord) h.2 rfl]
    rfl
  | .superRef ⟨token, hops⟩ method, h, hu => by
    obtain rfl : hops = none := hu _ List.mem_cons_self
    rw [Expr.relabel, Reference.relabel, h.1.1.bare_eq (u := superWord) h.1.2 rfl,
      bare_of_from h.2]
    rfl

theorem readForms_ofExprs : ∀ es : List Expr, Expr.MadeAll Token.Legible es →
    Unbound (Expr.referencesAll es) → readForms (ofExprs es) = Expr.relabelAll .bare es
  | [], _, _ => rfl
  | e :: es, h, hu => by
    obtain ⟨he, hes⟩ := unbound_append.1 hu
    rw [ofExprs, readForms_cons, readForm_ofExpr e h.1 he, readForms_ofExprs es h.2 hes,
      Expr.relabelAll]

end

/-! ## Statements read back -/

theorem readParams_heading (n : String) {params : List Token}
    (h : ∀ p ∈ params, p.From Token.Legible .identifier) :
    readParams (heading n (params.map (·.lexeme))).core = params.map .bare := by
  cases params with
  | nil => rfl
  | cons p ps =>
    obtain ⟨hp, hps⟩ := List.forall_mem_cons.1 h
    have hne : p.lexeme ≠ "" := by
      have hname := isName_of_from hp
      rintro he
      rw [he] at hname
      cases hname
    have hmore : ps.map Token.bare = ps.map fun q => name q.lexeme :=
      List.map_congr_left fun q hq => bare_of_from (hps q hq)
    rw [List.map_cons, List.map_cons, bare_of_from hp, hmore, heading, readParams, if_neg hne,
      List.map_map, List.map_map]
    rfl

mutual

theorem readStmt_ofStmt : ∀ s : Stmt, s.Made Token.Legible → Unbound s.references →
    readStmt (ofStmt s) = s.relabel .bare
  | .expression e, h, hu => congrArg Stmt.expression (readForm_ofExpr e h hu)
  | .print e, h, hu => congrArg Stmt.print (readForm_ofExpr e h hu)
  | .var n none, h, _ => by
    rw [ofStmt, readStmt_node, Stmt.relabel, bare_of_from h.1]
    rfl
  | .var n (some init), h, hu => by
    rw [ofStmt, readStmt_node, Stmt.relabel, bare_of_from h.1, Option.map_some,
      ← readForm_ofExpr init (h.2 init rfl) hu]
    rfl
  | .block body, h, hu => congrArg Stmt.block (readStmts_ofStmts body h hu)
  | .ifThen test yes, h, hu => by
    obtain ⟨ht, hy⟩ := unbound_append.1 hu
    exact congrArg₂ Stmt.ifThen (readForm_ofExpr test h.1 ht) (readStmt_ofStmt yes h.2 hy)
  | .ifElse test yes no, h, hu => by
    obtain ⟨hty, hn⟩ := unbound_append.1 hu
    obtain ⟨ht, hy⟩ := unbound_append.1 hty
    rw [Stmt.relabel, ← readForm_ofExpr test h.1 ht, ← readStmt_ofStmt yes h.2.1 hy,
      ← readStmt_ofStmt no h.2.2 hn]
    rfl
  | .loop test body, h, hu => by
    obtain ⟨ht, hb⟩ := unbound_append.1 hu
    exact congrArg₂ Stmt.loop (readForm_ofExpr test h.1 ht) (readStmt_ofStmt body h.2 hb)
  | .function decl, h, hu => readStmt_ofFunction decl h hu
  | .ret keyword none, h, _ => by
    rw [ofStmt, readStmt_node, Stmt.relabel, h.1.1.bare_eq (u := returnWord) h.1.2 rfl]
    rfl
  | .ret keyword (some value), h, hu => by
    rw [ofStmt, readStmt_node, Stmt.relabel, h.1.1.bare_eq (u := returnWord) h.1.2 rfl,
      Option.map_some, ← readForm_ofExpr value (h.2 value rfl) hu]
    rfl
  | .classDecl n none methods, h, hu => by
    rw [ofStmt, readStmt_node, readStmts_cons, readStmts_ofFunctions methods h.2.2 hu,
      assembleStmt_class, readSuperclass_ofFunctions, functions_map, Stmt.relabel, bare_of_from h.1]
    rfl
  | .classDecl n (some ⟨token, hops⟩) methods, h, hu => by
    obtain ⟨hhops, hmethods⟩ := unbound_cons.1 hu
    obtain rfl : hops = none := hhops
    -- the superclass and the sign before it are no functions
    have hfunctions : functions (readStmts (word "<" :: word token.lexeme :: ofFunctions methods)) =
        FunDecl.relabelAll .bare methods := by
      rw [readStmts_cons, readStmts_cons, readStmts_ofFunctions methods h.2.2 hmethods]
      exact functions_map _
    rw [ofStmt, readStmt_node, readStmts_cons, assembleStmt_class, Reference.name, hfunctions,
      Stmt.relabel, bare_of_from h.1, Option.map_some, Reference.relabel,
      bare_of_from (h.2.1 _ rfl)]
    rfl

theorem readStmts_ofStmts : ∀ ss : List Stmt, Stmt.MadeAll Token.Legible ss →
    Unbound (Stmt.referencesAll ss) → readStmts (ofStmts ss) = Stmt.relabelAll .bare ss
  | [], _, _ => rfl
  | s :: ss, h, hu => by
    obtain ⟨hs, hss⟩ := unbound_append.1 hu
    rw [ofStmts, readStmts_cons, readStmt_ofStmt s h.1 hs, readStmts_ofStmts ss h.2 hss,
      Stmt.relabelAll]

theorem readStmt_ofFunction : ∀ d : FunDecl Stmt, FunDecl.Made Token.Legible d →
    Unbound (FunDecl.references d) →
    readStmt (ofFunction d) = .function (FunDecl.relabel .bare d)
  | ⟨n, params, body⟩, h, hu => by
    rw [ofFunction, readStmt_node, readStmts_cons, readStmts_ofStmts body h.2.2 hu, FunDecl.relabel,
      bare_of_from h.1, assembleStmt_fun, front_heading, readParams_heading n.lexeme h.2.1]

theorem readStmts_ofFunctions : ∀ ds : List (FunDecl Stmt), FunDecl.MadeAll Token.Legible ds →
    Unbound (FunDecl.referencesAll ds) →
    readStmts (ofFunctions ds) = (FunDecl.relabelAll .bare ds).map .function
  | [], _, _ => rfl
  | d :: ds, h, hu => by
    obtain ⟨hd, hds⟩ := unbound_append.1 hu
    rw [ofFunctions, readStmts_cons, readStmt_ofFunction d h.1 hd,
      readStmts_ofFunctions ds h.2 hds, FunDecl.relabelAll, List.map_cons]

end

end Debug

end Lox

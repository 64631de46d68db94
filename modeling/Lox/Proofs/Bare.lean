import Mathlib.Data.List.Forall2
import Lox.Proofs.Relabel
import Lox.Scope.References
import Lox.Scope.Rules
import Lox.Tree.Printer

/-!
# Trees without places

`Token.bare` takes from a token its line and its offset. What is said of a tree before it runs does
not need them: a tree of bare tokens has the same debug form (`Stmt.debugAll_bare`), is bound to the
same scopes (`Stmt.bindAll_bare`) and breaks the same rules in the same order
(`Stmt.violationsAll_bare`).
-/

namespace Lox

/-- The token without its place. -/
def Token.bare (t : Token) : Token := { t with line := 0, offset := 0 }

/-- The fault without its line. -/
def Diagnostic.bare (d : Diagnostic) : Diagnostic := { d with line := 0 }

@[simp] theorem Token.kind_bare (t : Token) : t.bare.kind = t.kind := rfl

@[simp] theorem Token.lexeme_bare (t : Token) : t.bare.lexeme = t.lexeme := rfl

@[simp] theorem Diagnostic.ofToken_bare (t : Token) (cause : Cause) :
    Diagnostic.ofToken t.bare cause = (Diagnostic.ofToken t cause).bare := rfl

@[simp] theorem Reference.name_bare (r : Reference) : (r.relabel .bare).name = r.name := rfl

/-- Tokens that are equal but for their places are the same when bare. -/
theorem Token.map_bare_eq {ts ts' : List Token}
    (h : List.Forall₂ (fun t t' => t'.kind = t.kind ∧ t'.lexeme = t.lexeme) ts ts') :
    ts'.map Token.bare = ts.map Token.bare := by
  induction h with
  | nil => rfl
  | @cons t t' ts ts' ht _ ih =>
    obtain ⟨hkind, hlexeme⟩ := ht
    rw [List.map_cons, List.map_cons, ih, bare, bare, hkind, hlexeme]

/-! ## The debug form -/

mutual

theorem Expr.debug_bare : ∀ e : Expr, (e.relabel .bare).debug = e.debug
  | .literal _ => rfl
  | .group inner => by rw [Expr.relabel, Expr.debug, Expr.debug, Expr.debug_bare inner]
  | .unary _ _ right => by rw [Expr.relabel, Expr.debug, Expr.debug, Expr.debug_bare right]
  | .binary _ _ left right => by
    rw [Expr.relabel, Expr.debug, Expr.debug, Expr.debug_bare left, Expr.debug_bare right]
  | .logical _ _ left right => by
    rw [Expr.relabel, Expr.debug, Expr.debug, Expr.debug_bare left, Expr.debug_bare right]
  | .name _ => rfl
  | .assign _ value => by
    rw [Expr.relabel, Expr.debug, Expr.debug, Expr.debug_bare value, Reference.name_bare]
  | .call callee _ args => by
    rw [Expr.relabel, Expr.debug, Expr.debug, Expr.debug_bare callee, Expr.debugAll_bare args]
  | .get object _ => by
    rw [Expr.relabel, Expr.debug, Expr.debug, Expr.debug_bare object, Token.lexeme_bare]
  | .set object _ value => by
    rw [Expr.relabel, Expr.debug, Expr.debug, Expr.debug_bare object, Expr.debug_bare value,
      Token.lexeme_bare]
  | .thisRef _ => rfl
  | .superRef _ _ => rfl

theorem Expr.debugAll_bare : ∀ es : List Expr,
    Expr.debugAll (Expr.relabelAll .bare es) = Expr.debugAll es
  | [] => rfl
  | e :: es => by
    rw [Expr.relabelAll, Expr.debugAll, Expr.debugAll, Expr.debug_bare e, Expr.debugAll_bare es]

end

mutual

theorem Stmt.debug_bare : ∀ s : Stmt, (s.relabel .bare).debug = s.debug
  | .expression e => by rw [Stmt.relabel, Stmt.debug, Stmt.debug, e.debug_bare]
  | .print e => by rw [Stmt.relabel, Stmt.debug, Stmt.debug, e.debug_bare]
  | .var _ none => rfl
  | .var _ (some init) => by
    rw [Stmt.relabel, Option.map_some, Stmt.debug, Stmt.debug, init.debug_bare, Token.lexeme_bare]
  | .block [] => rfl
  | .block (s :: body) => by
    rw [Stmt.relabel, Stmt.relabelAll, Stmt.debug, Stmt.debug, Stmt.debug_bare s,
      Stmt.debugAll_bare body]
  | .ifThen test yes => by
    rw [Stmt.relabel, Stmt.debug, Stmt.debug, test.debug_bare, Stmt.debug_bare yes]
  | .ifElse test yes no => by
    rw [Stmt.relabel, Stmt.debug, Stmt.debug, test.debug_bare, Stmt.debug_bare yes,
      Stmt.debug_bare no]
  | .loop test body => by
    rw [Stmt.relabel, Stmt.debug, Stmt.debug, test.debug_bare, Stmt.debug_bare body]
  | .function decl => FunDecl.debug_bare decl
  | .ret _ none => rfl
  | .ret _ (some value) => by
    rw [Stmt.relabel, Option.map_some, Stmt.debug, Stmt.debug, value.debug_bare]
  | .classDecl _ superclass methods => by
    simp only [Stmt.relabel, Stmt.debug, FunDecl.debugAll_bare methods]
    cases superclass <;> rfl

theorem Stmt.debugAll_bare : ∀ ss : List Stmt,
    Stmt.debugAll (Stmt.relabelAll .bare ss) = Stmt.debugAll ss
  | [] => rfl
  | s :: ss => by
    rw [Stmt.relabelAll, Stmt.debugAll, Stmt.debugAll, Stmt.debug_bare s, Stmt.debugAll_bare ss]

theorem FunDecl.debug_bare : ∀ d : FunDecl Stmt,
    FunDecl.debug (FunDecl.relabel .bare d) = FunDecl.debug d
  | ⟨name, params, body⟩ => by
    have hparams : (params.map Token.bare).map (·.lexeme) = params.map (·.lexeme) := by
      rw [List.map_map]
      rfl
    rw [FunDecl.relabel, FunDecl.debug, FunDecl.debug, hparams, Stmt.debugAll_bare body]
    rfl

theorem FunDecl.debugAll_bare : ∀ ds : List (FunDecl Stmt),
    FunDecl.debugAll (FunDecl.relabelAll .bare ds) = FunDecl.debugAll ds
  | [] => rfl
  | d :: ds => by
    rw [FunDecl.relabelAll, FunDecl.debugAll, FunDecl.debugAll, FunDecl.debug_bare d,
      FunDecl.debugAll_bare ds]

end

/-! ## Scopes -/

@[simp] theorem Scopes.declare_bare (σ : Scopes) (name : Token) (ready : Bool) :
    σ.declare name.bare ready = σ.declare name ready := rfl

theorem Scopes.withParams_bare (σ : Scopes) (params : List Token) :
    σ.withParams (params.map .bare) = σ.withParams params := by
  rw [withParams, List.foldl_map]
  rfl

theorem Stmt.declare_bare (σ : Scopes) (s : Stmt) : (s.relabel .bare).declare σ = s.declare σ := by
  cases s with
  | function d => cases d; rfl
  | _ => rfl

/-! ## Binding -/

mutual

theorem Expr.bind_bare (σ : Scopes) : ∀ e : Expr,
    (e.relabel .bare).bind σ = (e.bind σ).relabel .bare
  | .literal _ => rfl
  | .group inner => congrArg Expr.group (Expr.bind_bare σ inner)
  | .unary op token right => congrArg (Expr.unary op token.bare) (Expr.bind_bare σ right)
  | .binary op token left right =>
    congrArg₂ (Expr.binary op token.bare) (Expr.bind_bare σ left) (Expr.bind_bare σ right)
  | .logical op token left right =>
    congrArg₂ (Expr.logical op token.bare) (Expr.bind_bare σ left) (Expr.bind_bare σ right)
  | .name _ => rfl
  | .assign ref value =>
    congrArg (Expr.assign ((ref.relabel .bare).bind σ)) (Expr.bind_bare σ value)
  | .call callee paren args =>
    congrArg₂ (Expr.call · paren.bare) (Expr.bind_bare σ callee) (Expr.bindAll_bare σ args)
  | .get object property => congrArg (Expr.get · property.bare) (Expr.bind_bare σ object)
  | .set object property value =>
    congrArg₂ (Expr.set · property.bare) (Expr.bind_bare σ object) (Expr.bind_bare σ value)
  | .thisRef _ => rfl
  | .superRef _ _ => rfl

theorem Expr.bindAll_bare (σ : Scopes) : ∀ es : List Expr,
    Expr.bindAll σ (Expr.relabelAll .bare es) = Expr.relabelAll .bare (Expr.bindAll σ es)
  | [] => rfl
  | e :: es => congrArg₂ List.cons (Expr.bind_bare σ e) (Expr.bindAll_bare σ es)

end

theorem Expr.map_bind_bare (σ : Scopes) (o : Option Expr) :
    (o.map (·.relabel .bare)).map (·.bind σ) = (o.map (·.bind σ)).map (·.relabel .bare) := by
  cases o with
  | none => rfl
  | some e => exact congrArg some (e.bind_bare σ)

mutual

theorem Stmt.bind_bare (σ : Scopes) : ∀ s : Stmt,
    (s.relabel .bare).bind σ = (s.bind σ).relabel .bare
  | .expression e => congrArg Stmt.expression (e.bind_bare σ)
  | .print e => congrArg Stmt.print (e.bind_bare σ)
  | .var name init => congrArg (Stmt.var name.bare) (Expr.map_bind_bare _ init)
  | .block body => congrArg Stmt.block (Stmt.bindAll_bare _ body)
  | .ifThen test yes => congrArg₂ Stmt.ifThen (test.bind_bare σ) (Stmt.bind_bare σ yes)
  | .ifElse test yes no => by
    rw [Stmt.relabel, Stmt.bind, Stmt.bind, Stmt.relabel, test.bind_bare σ, Stmt.bind_bare σ yes,
      Stmt.bind_bare σ no]
  | .loop test body => congrArg₂ Stmt.loop (test.bind_bare σ) (Stmt.bind_bare σ body)
  | .function ⟨_, _, _⟩ => congrArg Stmt.function (FunDecl.bind_bare _ _)
  | .ret keyword value => congrArg (Stmt.ret keyword.bare) (Expr.map_bind_bare σ value)
  | .classDecl name none methods =>
    congrArg (Stmt.classDecl name.bare none) (FunDecl.bindAll_bare _ methods)
  | .classDecl name (some _) methods =>
    congrArg (Stmt.classDecl name.bare (some _)) (FunDecl.bindAll_bare _ methods)

/-- **Scopes go by names**: bare statements are bound like the statements they are made from. -/
theorem Stmt.bindAll_bare (σ : Scopes) : ∀ ss : List Stmt,
    Stmt.bindAll σ (Stmt.relabelAll .bare ss) = Stmt.relabelAll .bare (Stmt.bindAll σ ss)
  | [] => rfl
  | s :: ss => by
    rw [Stmt.relabelAll, Stmt.bindAll, Stmt.bindAll, Stmt.relabelAll, Stmt.bind_bare σ s,
      Stmt.declare_bare, Stmt.bindAll_bare _ ss]

theorem FunDecl.bind_bare (σ : Scopes) : ∀ d : FunDecl Stmt,
    FunDecl.bind σ (FunDecl.relabel .bare d) = FunDecl.relabel .bare (FunDecl.bind σ d)
  | ⟨name, params, body⟩ => by
    rw [FunDecl.relabel, FunDecl.bind, FunDecl.bind, FunDecl.relabel, Scopes.withParams_bare,
      Stmt.bindAll_bare _ body]

theorem FunDecl.bindAll_bare (σ : Scopes) : ∀ ds : List (FunDecl Stmt),
    FunDecl.bindAll σ (FunDecl.relabelAll .bare ds) = FunDecl.relabelAll .bare (FunDecl.bindAll σ ds)
  | [] => rfl
  | d :: ds => congrArg₂ List.cons (FunDecl.bind_bare σ d) (FunDecl.bindAll_bare σ ds)

end

/-! ## Static rules -/

theorem Scopes.redeclared_bare (σ : Scopes) (name : Token) :
    Scopes.redeclared σ name.bare = (Scopes.redeclared σ name).map .bare := by
  unfold Scopes.redeclared
  rw [Token.lexeme_bare]
  split <;> rfl

theorem Reference.premature_bare (r : Reference) (σ : Scopes) :
    (r.relabel .bare).premature σ = (r.premature σ).map .bare := by
  unfold Reference.premature
  rw [Reference.name_bare]
  split <;> rfl

theorem ClassContext.thisRule_bare (c : ClassContext) (keyword : Token) :
    c.thisRule keyword.bare = (c.thisRule keyword).map .bare := by
  cases c <;> rfl

theorem ClassContext.superRule_bare (c : ClassContext) (keyword : Token) :
    c.superRule keyword.bare = (c.superRule keyword).map .bare := by
  cases c <;> rfl

theorem FunctionContext.returnRule_bare (f : FunctionContext) (keyword : Token) (hasValue : Bool) :
    f.returnRule keyword.bare hasValue = (f.returnRule keyword hasValue).map .bare := by
  cases f <;> cases hasValue <;> rfl

theorem Reference.inheritanceRule_bare (superclass : Reference) (name : Token) :
    (superclass.relabel .bare).inheritanceRule name.bare =
      (superclass.inheritanceRule name).map .bare := by
  unfold Reference.inheritanceRule
  rw [Reference.name_bare, Token.lexeme_bare]
  split <;> rfl

theorem Scopes.paramRule_bare (σ : Scopes) (params : List Token) :
    Scopes.paramRule σ (params.map .bare) = (Scopes.paramRule σ params).map .bare := by
  induction params generalizing σ with
  | nil => rfl
  | cons param params ih =>
    rw [List.map_cons, Scopes.paramRule, Scopes.paramRule, List.map_append, Scopes.redeclared_bare,
      Scopes.declare_bare, ih]

mutual

theorem Expr.violations_bare (c : ClassContext) (σ : Scopes) : ∀ e : Expr,
    (e.relabel .bare).violations c σ = (e.violations c σ).map .bare
  | .literal _ => rfl
  | .group inner => Expr.violations_bare c σ inner
  | .unary _ _ right => Expr.violations_bare c σ right
  | .binary _ _ left right => by
    rw [Expr.relabel, Expr.violations, Expr.violations, List.map_append,
      Expr.violations_bare c σ left, Expr.violations_bare c σ right]
  | .logical _ _ left right => by
    rw [Expr.relabel, Expr.violations, Expr.violations, List.map_append,
      Expr.violations_bare c σ left, Expr.violations_bare c σ right]
  | .name ref => ref.premature_bare σ
  | .assign _ value => Expr.violations_bare c σ value
  | .call callee _ args => by
    rw [Expr.relabel, Expr.violations, Expr.violations, List.map_append,
      Expr.violations_bare c σ callee, Expr.violationsAll_bare c σ args]
  | .get object _ => Expr.violations_bare c σ object
  | .set object _ value => by
    rw [Expr.relabel, Expr.violations, Expr.violations, List.map_append,
      Expr.violations_bare c σ object, Expr.violations_bare c σ value]
  | .thisRef ref => c.thisRule_bare ref.token
  | .superRef ref _ => c.superRule_bare ref.token

theorem Expr.violationsAll_bare (c : ClassContext) (σ : Scopes) : ∀ es : List Expr,
    Expr.violationsAll c σ (Expr.relabelAll .bare es) = (Expr.violationsAll c σ es).map .bare
  | [] => rfl
  | e :: es => by
    rw [Expr.relabelAll, Expr.violationsAll, Expr.violationsAll, List.map_append,
      Expr.violations_bare c σ e, Expr.violationsAll_bare c σ es]

end

theorem Expr.getD_violations_bare (c : ClassContext) (σ : Scopes) (o : Option Expr) :
    ((o.map (·.relabel .bare)).map (·.violations c σ)).getD [] =
      ((o.map (·.violations c σ)).getD []).map .bare := by
  cases o with
  | none => rfl
  | some e => exact e.violations_bare c σ

mutual

theorem Stmt.violations_bare (f : FunctionContext) (c : ClassContext) (σ : Scopes) : ∀ s : Stmt,
    (s.relabel .bare).violations f c σ = (s.violations f c σ).map .bare
  | .expression e => e.violations_bare c σ
  | .print e => e.violations_bare c σ
  | .var name init => by
    rw [Stmt.relabel, Stmt.violations, Stmt.violations, List.map_append, Scopes.redeclared_bare,
      Scopes.declare_bare, Expr.getD_violations_bare]
  | .block body => Stmt.violationsAll_bare f c _ body
  | .ifThen test yes => by
    rw [Stmt.relabel, Stmt.violations, Stmt.violations, List.map_append, test.violations_bare,
      Stmt.violations_bare f c σ yes]
  | .ifElse test yes no => by
    rw [Stmt.relabel, Stmt.violations, Stmt.violations, List.map_append, List.map_append,
      test.violations_bare, Stmt.violations_bare f c σ yes, Stmt.violations_bare f c σ no]
  | .loop test body => by
    rw [Stmt.relabel, Stmt.violations, Stmt.violations, List.map_append, test.violations_bare,
      Stmt.violations_bare f c σ body]
  | .function ⟨name, params, body⟩ => by
    rw [Stmt.relabel, Stmt.violations, Stmt.violations, List.map_append,
      FunDecl.violations_bare .plain c]
    exact congrArg (· ++ _) (Scopes.redeclared_bare σ name)
  | .ret keyword value => by
    rw [Stmt.relabel, Stmt.violations, Stmt.violations, List.map_append, Option.isSome_map,
      f.returnRule_bare, Expr.getD_violations_bare]
  | .classDecl name superclass methods => by
    simp only [Stmt.relabel, Stmt.violations, List.map_append, Option.isSome_map,
      Scopes.redeclared_bare, Scopes.declare_bare]
    rw [FunDecl.violationsAll_bare]
    cases superclass with
    | none => rfl
    | some ref =>
      simp only [Option.map_some, Option.getD_some, List.map_append, ref.inheritanceRule_bare,
        ref.premature_bare]

/-- **Static rules go by names**: bare statements break the rules that the statements they are made
from break, in the same order. -/
theorem Stmt.violationsAll_bare (f : FunctionContext) (c : ClassContext) (σ : Scopes) :
    ∀ ss : List Stmt, Stmt.violationsAll f c σ (Stmt.relabelAll .bare ss) =
      (Stmt.violationsAll f c σ ss).map .bare
  | [] => rfl
  | s :: ss => by
    rw [Stmt.relabelAll, Stmt.violationsAll, Stmt.violationsAll, List.map_append,
      Stmt.declare_bare, Stmt.violations_bare f c σ s, Stmt.violationsAll_bare f c _ ss]

theorem FunDecl.violations_bare (f : FunctionContext) (c : ClassContext) (σ : Scopes) :
    ∀ d : FunDecl Stmt, FunDecl.violations f c σ (FunDecl.relabel .bare d) =
      (FunDecl.violations f c σ d).map .bare
  | ⟨name, params, body⟩ => by
    rw [FunDecl.relabel, FunDecl.violations, FunDecl.violations, List.map_append,
      Scopes.paramRule_bare, Scopes.withParams_bare, Stmt.violationsAll_bare f c _ body]

theorem FunDecl.violationsAll_bare (c : ClassContext) (σ : Scopes) :
    ∀ ds : List (FunDecl Stmt), FunDecl.violationsAll c σ (FunDecl.relabelAll .bare ds) =
      (FunDecl.violationsAll c σ ds).map .bare
  | [] => rfl
  | d :: ds => by
    have hinit : (FunDecl.relabel .bare d).isInitializer = d.isInitializer := by
      cases d
      rfl
    rw [FunDecl.relabelAll, FunDecl.violationsAll, FunDecl.violationsAll, List.map_append, hinit,
      FunDecl.violations_bare _ c σ d, FunDecl.violationsAll_bare c σ ds]

end

/-! ## References -/

/-- A use of a name without its place. -/
def Reference.bareUse : Use × Reference → Use × Reference
  | (use, ref) => (use, ref.relabel .bare)

mutual

theorem Expr.references_bare : ∀ e : Expr,
    (e.relabel .bare).references = e.references.map Reference.bareUse
  | .literal _ => rfl
  | .group inner => Expr.references_bare inner
  | .unary _ _ right => Expr.references_bare right
  | .binary _ _ left right => by
    rw [Expr.relabel, Expr.references, Expr.references, List.map_append,
      Expr.references_bare left, Expr.references_bare right]
  | .logical _ _ left right => by
    rw [Expr.relabel, Expr.references, Expr.references, List.map_append,
      Expr.references_bare left, Expr.references_bare right]
  | .name _ => rfl
  | .assign ref value => congrArg ((Use.assign, ref.relabel .bare) :: ·) (Expr.references_bare value)
  | .call callee _ args => by
    rw [Expr.relabel, Expr.references, Expr.references, List.map_append,
      Expr.references_bare callee, Expr.referencesAll_bare args]
  | .get object _ => Expr.references_bare object
  | .set object _ value => by
    rw [Expr.relabel, Expr.references, Expr.references, List.map_append,
      Expr.references_bare object, Expr.references_bare value]
  | .thisRef _ => rfl
  | .superRef _ _ => rfl

theorem Expr.referencesAll_bare : ∀ es : List Expr,
    Expr.referencesAll (Expr.relabelAll .bare es) = (Expr.referencesAll es).map Reference.bareUse
  | [] => rfl
  | e :: es => by
    rw [Expr.relabelAll, Expr.referencesAll, Expr.referencesAll, List.map_append,
      Expr.references_bare e, Expr.referencesAll_bare es]

end

theorem Expr.getD_references_bare (o : Option Expr) :
    ((o.map (·.relabel .bare)).map (·.references)).getD [] =
      ((o.map (·.references)).getD []).map Reference.bareUse := by
  cases o with
  | none => rfl
  | some e => exact e.references_bare

mutual

theorem Stmt.references_bare : ∀ s : Stmt,
    (s.relabel .bare).references = s.references.map Reference.bareUse
  | .expression e => e.references_bare
  | .print e => e.references_bare
  | .var _ init => Expr.getD_references_bare init
  | .block body => Stmt.referencesAll_bare body
  | .ifThen test yes => by
    rw [Stmt.relabel, Stmt.references, Stmt.references, List.map_append, test.references_bare,
      Stmt.references_bare yes]
  | .ifElse test yes no => by
    rw [Stmt.relabel, Stmt.references, Stmt.references, List.map_append, List.map_append,
      test.references_bare, Stmt.references_bare yes, Stmt.references_bare no]
  | .loop test body => by
    rw [Stmt.relabel, Stmt.references, Stmt.references, List.map_append, test.references_bare,
      Stmt.references_bare body]
  | .function decl => FunDecl.references_bare decl
  | .ret _ value => Expr.getD_references_bare value
  | .classDecl _ superclass methods => by
    rw [Stmt.relabel, Stmt.references, Stmt.references, List.map_append,
      FunDecl.referencesAll_bare methods]
    cases superclass <;> rfl

/-- The uses of names in bare statements are those in the statements they are made from. -/
theorem Stmt.referencesAll_bare : ∀ ss : List Stmt,
    Stmt.referencesAll (Stmt.relabelAll .bare ss) = (Stmt.referencesAll ss).map Reference.bareUse
  | [] => rfl
  | s :: ss => by
    rw [Stmt.relabelAll, Stmt.referencesAll, Stmt.referencesAll, List.map_append,
      Stmt.references_bare s, Stmt.referencesAll_bare ss]

theorem FunDecl.references_bare : ∀ d : FunDecl Stmt,
    FunDecl.references (FunDecl.relabel .bare d) = (FunDecl.references d).map Reference.bareUse
  | ⟨_, _, body⟩ => Stmt.referencesAll_bare body

theorem FunDecl.referencesAll_bare : ∀ ds : List (FunDecl Stmt),
    FunDecl.referencesAll (FunDecl.relabelAll .bare ds) =
      (FunDecl.referencesAll ds).map Reference.bareUse
  | [] => rfl
  | d :: ds => by
    rw [FunDecl.relabelAll, FunDecl.referencesAll, FunDecl.referencesAll, List.map_append,
      FunDecl.references_bare d, FunDecl.referencesAll_bare ds]

end

end Lox

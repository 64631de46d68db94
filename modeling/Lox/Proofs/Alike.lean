import Mathlib.Logic.Equiv.Basic
import Lox.Proofs.Actions

/-!
# Programs that are alike

Two pieces of code are alike (`Expr.Alike`, `Stmt.Alike`) if they differ only in the lines of their
tokens and in the names of their local variables: each scope has a renaming, and a reference that is
bound `k` scopes out is renamed by the renaming of that scope. What may differ is told by a
`Likeness`.
-/

namespace Lox

/-! ## Renamings -/

/-- What the names of one scope are called on the other side. -/
abbrev Renaming := Equiv.Perm String

/-- What two runs have in common besides their shape. -/
structure Likeness where
  /-- Tokens stand on the same lines. -/
  lines : Prop
  /-- Variables have the same names. -/
  names : Prop

/-- A renaming that may belong to a scope. The two words that only classes bind are not renamed. -/
structure Renaming.Fair (K : Likeness) (ν : Renaming) : Prop where
  this : ν "this" = "this"
  super : ν "super" = "super"
  names : K.names → ν = .refl String

theorem Renaming.fair_refl (K : Likeness) : Renaming.Fair K (.refl String) :=
  ⟨rfl, rfl, fun _ => rfl⟩

namespace Table

variable {α : Type}

/-- The table with its names renamed. -/
def rename (ν : Renaming) (t : Table α) : Table α := t.map fun e => (ν e.1, e.2)

theorem rename_refl (t : Table α) : t.rename (.refl String) = t := List.map_id t

theorem lookup_rename (ν : Renaming) (t : Table α) (name : String) :
    (t.rename ν).lookup (ν name) = t.lookup name := by
  induction t with
  | nil => rfl
  | cons e rest ih =>
    have he : (ν name == ν e.1) = (name == e.1) := by
      rw [Bool.eq_iff_iff, beq_iff_eq, beq_iff_eq, ν.apply_eq_iff_eq]
    change List.lookup (ν name) ((ν e.1, e.2) :: rename ν rest) = List.lookup name ((e.1, e.2) :: rest)
    rw [List.lookup_cons, List.lookup_cons, he, ih]

theorem insert_rename (ν : Renaming) (t : Table α) (name : String) (a : α) :
    (t.rename ν).insert (ν name) a = (t.insert name a).rename ν := by
  induction t with
  | nil => rfl
  | cons e rest ih =>
    change insert ((ν e.1, e.2) :: rename ν rest) (ν name) a = rename ν (insert ((e.1, e.2) :: rest) name a)
    unfold insert
    by_cases he : e.1 = name
    · rw [if_pos (congrArg ν he), if_pos he]
      rfl
    · rw [if_neg (fun h => he (ν.injective h)), if_neg he, ih]
      rfl

theorem insertAll_rename (ν : Renaming) : ∀ (entries : List (String × α)) (t : Table α),
    (t.rename ν).insertAll (entries.map fun e => (ν e.1, e.2)) = (t.insertAll entries).rename ν
  | [], _ => rfl
  | (name, a) :: entries, t => by
    change ((t.rename ν).insert (ν name) a).insertAll (entries.map fun e => (ν e.1, e.2)) = _
    rw [insert_rename]
    exact insertAll_rename ν entries (t.insert name a)

theorem mem_insert {t : Table α} {name : String} {a : α} {e : String × α}
    (h : e ∈ t.insert name a) : e ∈ t ∨ e = (name, a) := by
  induction t with
  | nil => exact .inr (List.mem_singleton.1 h)
  | cons b rest ih =>
    unfold insert at h
    split at h
    · rcases List.mem_cons.1 h with rfl | h
      · exact .inr rfl
      · exact .inl (List.mem_cons_of_mem _ h)
    · rcases List.mem_cons.1 h with rfl | h
      · exact .inl List.mem_cons_self
      · exact (ih h).imp_left (List.mem_cons_of_mem _)

theorem mem_insertAll : ∀ {entries : List (String × α)} {t : Table α} {e : String × α},
    e ∈ t.insertAll entries → e ∈ t ∨ e ∈ entries
  | [], _, _, h => .inl h
  | (name, a) :: entries, t, e, h => by
    have h' : e ∈ (t.insert name a).insertAll entries := h
    rcases mem_insertAll h' with h | h
    · rcases mem_insert h with h | rfl
      · exact .inl h
      · exact .inr List.mem_cons_self
    · exact .inr (List.mem_cons_of_mem _ h)

theorem mem_of_lookup {t : Table α} {name : String} {a : α} (h : t.lookup name = some a) :
    (name, a) ∈ t := by
  obtain ⟨l₁, l₂, rfl, -⟩ := List.lookup_eq_some_iff.1 h
  simp

end Table

/-! ## Code -/

section
variable (K : Likeness)

/-- The tokens stand on the same line, if lines count. -/
def Token.Level (t t' : Token) : Prop := K.lines → t'.line = t.line

/-- Two references are alike under the renamings of the scopes around them, innermost first: a name
that no scope binds stays as it is. -/
structure Reference.Alike (ρ : List Renaming) (r r' : Reference) : Prop where
  level : r.token.Level K r'.token
  hops : r'.hops = r.hops
  free : r.hops = none → r'.name = r.name
  bound : ∀ k, r.hops = some k → ∃ ν, ρ[k]? = some ν ∧ r'.name = ν r.name

mutual

/-- Two expressions are alike under the renamings of the scopes around them. -/
inductive Expr.Alike (ρ : List Renaming) : Expr → Expr → Prop
  | literal {c} : Alike ρ (.literal c) (.literal c)
  | group {e e'} (h : Alike ρ e e') : Alike ρ (.group e) (.group e')
  | unary {op t t' e e'} (ht : t.Level K t') (h : Alike ρ e e') :
      Alike ρ (.unary op t e) (.unary op t' e')
  | binary {op t t' l l' r r'} (ht : t.Level K t') (hl : Alike ρ l l') (hr : Alike ρ r r') :
      Alike ρ (.binary op t l r) (.binary op t' l' r')
  | logical {op t t' l l' r r'} (hl : Alike ρ l l') (hr : Alike ρ r r') :
      Alike ρ (.logical op t l r) (.logical op t' l' r')
  | name {r r'} (hr : r.Alike K ρ r') : Alike ρ (.name r) (.name r')
  | assign {r r' e e'} (hr : r.Alike K ρ r') (h : Alike ρ e e') :
      Alike ρ (.assign r e) (.assign r' e')
  | call {e e' t t' es es'} (ht : t.Level K t') (h : Alike ρ e e') (hs : AlikeAll ρ es es') :
      Alike ρ (.call e t es) (.call e' t' es')
  | get {e e' t t'} (ht : t.Level K t') (hn : t'.lexeme = t.lexeme) (h : Alike ρ e e') :
      Alike ρ (.get e t) (.get e' t')
  | set {e e' t t' v v'} (ht : t.Level K t') (hn : t'.lexeme = t.lexeme) (h : Alike ρ e e')
      (hv : Alike ρ v v') : Alike ρ (.set e t v) (.set e' t' v')
  | thisRef {r r'} (hr : r.Alike K ρ r') : Alike ρ (.thisRef r) (.thisRef r')
  | superRef {r r' t t'} (hr : r.Alike K ρ r') (ht : t.Level K t') (hn : t'.lexeme = t.lexeme) :
      Alike ρ (.superRef r t) (.superRef r' t')

inductive Expr.AlikeAll (ρ : List Renaming) : List Expr → List Expr → Prop
  | nil : AlikeAll ρ [] []
  | cons {e e' es es'} (h : Expr.Alike ρ e e') (hs : AlikeAll ρ es es') :
      AlikeAll ρ (e :: es) (e' :: es')

end

/-- Two optional things are both there and alike, or both missing. -/
inductive OptionAlike {α : Type} (R : α → α → Prop) : Option α → Option α → Prop
  | none : OptionAlike R none none
  | some {a b} (h : R a b) : OptionAlike R (some a) (some b)

/-- The renaming of the innermost scope; globals are not renamed. -/
def innermost (ρ : List Renaming) : Renaming := ρ.headD (.refl String)

/-- The renamings around the methods of a class. -/
def aroundMethods (derived : Bool) (ρ : List Renaming) : List Renaming :=
  .refl String :: if derived then .refl String :: ρ else ρ

mutual

/-- Two statements are alike under the renamings of the scopes around them. A block and a function
have a scope of their own, with a renaming of its own; only variables are renamed in it. -/
inductive Stmt.Alike : List Renaming → Stmt → Stmt → Prop
  | expression {ρ e e'} (h : e.Alike K ρ e') : Alike ρ (.expression e) (.expression e')
  | print {ρ e e'} (h : e.Alike K ρ e') : Alike ρ (.print e) (.print e')
  | var {ρ t t' e e'} (hn : t'.lexeme = innermost ρ t.lexeme) (h : OptionAlike (Expr.Alike K ρ) e e') :
      Alike ρ (.var t e) (.var t' e')
  | block {ρ ν b b'} (hν : Renaming.Fair K ν) (hb : AlikeAll (ν :: ρ) b b') :
      Alike ρ (.block b) (.block b')
  | ifThen {ρ e e' y y'} (h : e.Alike K ρ e') (hy : Alike ρ y y') :
      Alike ρ (.ifThen e y) (.ifThen e' y')
  | ifElse {ρ e e' y y' n n'} (h : e.Alike K ρ e') (hy : Alike ρ y y') (hn : Alike ρ n n') :
      Alike ρ (.ifElse e y n) (.ifElse e' y' n')
  | loop {ρ e e' b b'} (h : e.Alike K ρ e') (hb : Alike ρ b b') :
      Alike ρ (.loop e b) (.loop e' b')
  | function {ρ d d'} (hn : innermost ρ d.name.lexeme = d.name.lexeme) (hd : FunAlike ρ d d') :
      Alike ρ (.function d) (.function d')
  | ret {ρ t t' e e'} (h : OptionAlike (Expr.Alike K ρ) e e') : Alike ρ (.ret t e) (.ret t' e')
  | classDecl {ρ t t' r r' ms ms'} (hn : innermost ρ t.lexeme = t.lexeme)
      (ht : t'.lexeme = t.lexeme) (hr : OptionAlike (Reference.Alike K ρ) r r')
      (hm : FunAlikeAll (aroundMethods r.isSome ρ) ms ms') :
      Alike ρ (.classDecl t r ms) (.classDecl t' r' ms')

inductive Stmt.AlikeAll : List Renaming → List Stmt → List Stmt → Prop
  | nil {ρ} : AlikeAll ρ [] []
  | cons {ρ s s' ss ss'} (h : Stmt.Alike ρ s s') (hs : AlikeAll ρ ss ss') :
      AlikeAll ρ (s :: ss) (s' :: ss')

/-- Two functions are alike: their scopes, with the parameters, have one renaming. -/
inductive Stmt.FunAlike : List Renaming → FunDecl Stmt → FunDecl Stmt → Prop
  | mk {ρ ν n n' ps ps' b b'} (hn : n'.lexeme = n.lexeme) (hν : Renaming.Fair K ν)
      (hp : ps'.map Token.lexeme = ps.map fun p => ν p.lexeme)
      (hb : Stmt.AlikeAll (ν :: ρ) b b') : FunAlike ρ ⟨n, ps, b⟩ ⟨n', ps', b'⟩

inductive Stmt.FunAlikeAll : List Renaming → List (FunDecl Stmt) → List (FunDecl Stmt) → Prop
  | nil {ρ} : FunAlikeAll ρ [] []
  | cons {ρ d d' ds ds'} (h : Stmt.FunAlike ρ d d') (hs : FunAlikeAll ρ ds ds') :
      FunAlikeAll ρ (d :: ds) (d' :: ds')

end

variable {K}

theorem Stmt.FunAlike.parts {ρ : List Renaming} {d d' : FunDecl Stmt} (h : FunAlike K ρ d d') :
    d'.name.lexeme = d.name.lexeme ∧ ∃ ν : Renaming, ν.Fair K ∧
      d'.params.map Token.lexeme = d.params.map (fun p => ν p.lexeme) ∧
      AlikeAll K (ν :: ρ) d.body d'.body := by
  cases h with
  | mk hn hν hp hb => exact ⟨hn, _, hν, hp, hb⟩

end

end Lox

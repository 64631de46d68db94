import Lox.Proofs.Occurrence

/-!
# Trees in the order of their text

Whether a name is bound at a place depends on what stands before the place. So what matters of a
tree is that its declared names stand where they should: before the rest of their declaration, and
between the statements around it (`Stmt.OrderedAll`). Loops with a header keep to this although their
last clause stands before their body in the text.

`Between ts rest xs` is a stretch of text: the tokens `xs` are among `ts` and stand before `rest`.
`Expr.Comes` and `Stmt.Comes` say of a tree that it is formed and in order, with its names in such a
stretch. They are put together the way trees are.
-/

namespace Lox

/-! ## Order in a tree -/

/-- The names in a statement, but for the one that it declares. -/
def Stmt.innerTokens : Stmt → List Token
  | .var _ init => (init.map (·.nameTokens)).getD []
  | .function ⟨_, params, body⟩ => params ++ Stmt.nameTokensAll body
  | .classDecl _ superclass methods =>
    (superclass.map fun ref => [ref.token]).getD [] ++ FunDecl.nameTokensAll methods
  | s => s.nameTokens

theorem Stmt.nameTokens_eq (s : Stmt) : s.nameTokens = s.name?.toList ++ s.innerTokens := by
  cases s with
  | function d => cases d; rfl
  | _ => rfl

theorem Stmt.name?_eq_none {s : Stmt} (h : s.isDeclaration = false) : s.name? = none := by
  cases s <;> first | rfl | cases h

theorem Stmt.innerTokens_eq {s : Stmt} (h : s.isDeclaration = false) :
    s.innerTokens = s.nameTokens := by
  rw [s.nameTokens_eq, s.name?_eq_none h]
  rfl

/-- A declared name stands before the rest of its declaration. -/
def Stmt.Leads (s : Stmt) : Prop :=
  ∀ d, s.name? = some d → ∀ x ∈ s.innerTokens, d.offset < x.offset

/-- The first of two statements stands before the second, as far as one of them declares a name that
the other may use. -/
def Stmt.Precedes (s s' : Stmt) : Prop :=
  (∀ d, s.name? = some d → ∀ x ∈ s'.nameTokens, d.offset < x.offset) ∧
    ∀ d, s'.name? = some d → ∀ x ∈ s.nameTokens, x.offset < d.offset

mutual

/-- The bodies in a statement are in order. -/
def Stmt.Ordered : Stmt → Prop
  | .block body => Stmt.OrderedAll body
  | .ifThen _ yes => yes.Ordered
  | .ifElse _ yes no => yes.Ordered ∧ no.Ordered
  | .loop _ body => body.Ordered
  | .function decl => FunDecl.Ordered decl
  | .classDecl _ _ methods => FunDecl.OrderedAll methods
  | .expression _ | .print _ | .var _ _ | .ret _ _ => True

/-- The declarations among the statements of a body stand in their order. -/
def Stmt.OrderedAll : List Stmt → Prop
  | [] => True
  | s :: ss => s.Ordered ∧ s.Leads ∧ (∀ s' ∈ ss, s.Precedes s') ∧ Stmt.OrderedAll ss

def FunDecl.Ordered : FunDecl Stmt → Prop
  | ⟨_, _, body⟩ => Stmt.OrderedAll body

def FunDecl.OrderedAll : List (FunDecl Stmt) → Prop
  | [] => True
  | d :: ds => FunDecl.Ordered d ∧ FunDecl.OrderedAll ds

end

/-! ## Stretches of tokens -/

/-- The tokens `xs` are among `ts` and stand before all of `rest`. -/
def Between (ts rest xs : List Token) : Prop :=
  ∀ x ∈ xs, x ∈ ts ∧ ∀ t ∈ rest, x.offset < t.offset

namespace Between

variable {ts mid rest xs ys : List Token} {x : Token}

theorem nil : Between ts rest [] := fun _ hx => by cases hx

theorem append (h : Between ts rest xs) (h' : Between ts rest ys) : Between ts rest (xs ++ ys) :=
  fun x hx => (List.mem_append.1 hx).elim (h x) (h' x)

theorem cons (h : Between ts rest [x]) (h' : Between ts rest xs) : Between ts rest (x :: xs) :=
  h.append h'

/-- The stretch may begin earlier. -/
theorem since (h : Between mid rest xs) (hs : mid <:+ ts) : Between ts rest xs :=
  fun x hx => ⟨hs.subset (h x hx).1, (h x hx).2⟩

/-- The stretch may end later. -/
theorem till (h : Between ts mid xs) (hs : rest <:+ mid) : Between ts rest xs :=
  fun x hx => ⟨(h x hx).1, fun t ht => (h x hx).2 t (hs.subset ht)⟩

theorem mono (h : Between ts rest xs) (hs : ∀ y ∈ ys, y ∈ xs) : Between ts rest ys :=
  fun y hy => h y (hs y hy)

/-- What stands in one stretch comes before what stands in the next. -/
theorem lt (h : Between ts mid xs) (h' : Between mid rest ys) {y : Token} (hx : x ∈ xs)
    (hy : y ∈ ys) : x.offset < y.offset :=
  (h x hx).2 y (h' y hy).1

end Between

/-! ## Trees between tokens -/

/-- The token is well spelled, and stands between the tokens. -/
def Token.Comes (ts rest : List Token) (t : Token) : Prop := t.Spelled ∧ Between ts rest [t]

/-- The expression is formed, and its names stand between the tokens. -/
def Expr.Comes (ts rest : List Token) (e : Expr) : Prop :=
  e.Formed ∧ Between ts rest e.nameTokens

def Expr.ComesAll (ts rest : List Token) (es : List Expr) : Prop :=
  Expr.FormedAll es ∧ Between ts rest (Expr.nameTokensAll es)

/-- The expression, if there is one, is formed, and its names stand between the tokens. -/
def Expr.MayCome (ts rest : List Token) (o : Option Expr) : Prop :=
  ∀ e, o = some e → e.Comes ts rest

/-- The superclass, if there is one, is a name and stands between the tokens. -/
def Reference.MayCome (ts rest : List Token) (o : Option Reference) : Prop :=
  ∀ ref, o = some ref → ¬ Heap.isWord ref.name ∧ Between ts rest [ref.token]

/-- The statement is formed and in order, and its names stand between the tokens. -/
structure Stmt.Comes (ts rest : List Token) (s : Stmt) : Prop where
  formed : s.Formed
  ordered : s.Ordered
  leads : s.Leads
  between : Between ts rest s.nameTokens

/-- The statement is no declaration. -/
def Stmt.ComesPlain (ts rest : List Token) (s : Stmt) : Prop :=
  s.Comes ts rest ∧ s.isDeclaration = false

structure Stmt.ComesAll (ts rest : List Token) (ss : List Stmt) : Prop where
  formed : Stmt.FormedAll ss
  ordered : Stmt.OrderedAll ss
  between : Between ts rest (Stmt.nameTokensAll ss)

structure FunDecl.Comes (ts rest : List Token) (d : FunDecl Stmt) : Prop where
  formed : FunDecl.Formed d
  ordered : FunDecl.Ordered d
  leads : (Stmt.function d).Leads
  between : Between ts rest (FunDecl.nameTokens d)

structure FunDecl.ComesAll (ts rest : List Token) (ds : List (FunDecl Stmt)) : Prop where
  formed : FunDecl.FormedAll ds
  ordered : FunDecl.OrderedAll ds
  between : Between ts rest (FunDecl.nameTokensAll ds)

section
variable {ts mid rest : List Token}

theorem Expr.Comes.since {e : Expr} (h : e.Comes mid rest) (hs : mid <:+ ts) : e.Comes ts rest :=
  ⟨h.1, h.2.since hs⟩

theorem Expr.Comes.till {e : Expr} (h : e.Comes ts mid) (hs : rest <:+ mid) : e.Comes ts rest :=
  ⟨h.1, h.2.till hs⟩

theorem Expr.MayCome.none : Expr.MayCome ts rest none := fun e he => by cases he

theorem Expr.Comes.mayCome {e : Expr} (h : e.Comes ts rest) : Expr.MayCome ts rest (some e) :=
  fun e' he => by cases he; exact h

theorem Expr.MayCome.between {o : Option Expr} (h : Expr.MayCome ts rest o) :
    Between ts rest ((o.map (·.nameTokens)).getD []) := by
  cases o with
  | none => exact .nil
  | some e => exact (h e rfl).2

theorem Expr.MayCome.formed {o : Option Expr} (h : Expr.MayCome ts rest o) :
    ∀ e, o = some e → e.Formed :=
  fun e he => (h e he).1

theorem Expr.MayCome.since {o : Option Expr} (h : Expr.MayCome mid rest o) (hs : mid <:+ ts) :
    Expr.MayCome ts rest o :=
  fun e he => (h e he).since hs

theorem Expr.MayCome.till {o : Option Expr} (h : Expr.MayCome ts mid o) (hs : rest <:+ mid) :
    Expr.MayCome ts rest o :=
  fun e he => (h e he).till hs

theorem Stmt.leads_of_not_isDeclaration {s : Stmt} (h : s.isDeclaration = false) : s.Leads :=
  fun d hd => by rw [s.name?_eq_none h] at hd; cases hd

theorem Stmt.Comes.since {s : Stmt} (h : s.Comes mid rest) (hs : mid <:+ ts) : s.Comes ts rest :=
  { h with between := h.between.since hs }

theorem Stmt.ComesPlain.since {s : Stmt} (h : s.ComesPlain mid rest) (hs : mid <:+ ts) :
    s.ComesPlain ts rest :=
  ⟨h.1.since hs, h.2⟩

theorem Stmt.precedes_of_not_isDeclaration {s s' : Stmt} (h : s.isDeclaration = false)
    (h' : s'.isDeclaration = false) : s.Precedes s' :=
  ⟨fun d hd => (by rw [s.name?_eq_none h] at hd; cases hd),
    fun d hd => (by rw [s'.name?_eq_none h'] at hd; cases hd)⟩

theorem Stmt.mem_nameTokens_of_name? {s : Stmt} {d : Token} (h : s.name? = some d) :
    d ∈ s.nameTokens := by
  rw [s.nameTokens_eq, h]
  exact List.mem_cons_self

/-- Statements read one after the other stand in their order. -/
theorem Stmt.precedes_of_between {s s' : Stmt} (h : Between ts mid s.nameTokens)
    (h' : Between mid rest s'.nameTokens) : s.Precedes s' :=
  ⟨fun _ hd _ hx => h.lt h' (Stmt.mem_nameTokens_of_name? hd) hx,
    fun _ hd _ hx => h.lt h' hx (Stmt.mem_nameTokens_of_name? hd)⟩

theorem Stmt.mem_nameTokensAll {x : Token} {ss : List Stmt} :
    x ∈ Stmt.nameTokensAll ss ↔ ∃ s ∈ ss, x ∈ s.nameTokens := by
  induction ss with
  | nil => simp [Stmt.nameTokensAll]
  | cons s ss ih => simp [Stmt.nameTokensAll, ih]

theorem Stmt.ComesAll.nil : Stmt.ComesAll ts rest [] := ⟨trivial, trivial, .nil⟩

theorem Stmt.ComesAll.since {ss : List Stmt} (h : Stmt.ComesAll mid rest ss) (hs : mid <:+ ts) :
    Stmt.ComesAll ts rest ss :=
  { h with between := h.between.since hs }

theorem Stmt.ComesAll.cons {s : Stmt} {ss : List Stmt} (h : s.Comes ts mid)
    (h' : Stmt.ComesAll mid rest ss) (hl : mid <:+ ts) (hr : rest <:+ mid) :
    Stmt.ComesAll ts rest (s :: ss) where
  formed := ⟨h.formed, h'.formed⟩
  ordered := by
    refine ⟨h.ordered, h.leads, fun s' hs => ?_, h'.ordered⟩
    exact Stmt.precedes_of_between h.between
      (h'.between.mono fun x hx => Stmt.mem_nameTokensAll.2 ⟨s', hs, hx⟩)
  between := (h.between.till hr).append
    (h'.between.since hl)

/-- The loop with a header is in order, although its last clause stands before its body in the text:
neither declares a name. -/
theorem Stmt.comesPlain_forLoop {init : Option Stmt} {test update : Option Expr} {body : Stmt}
    (hi : ∀ s, init = some s → s.Comes ts mid) (ht : Expr.MayCome mid rest test)
    (hu : Expr.MayCome mid rest update) (hb : body.ComesPlain mid rest) (hl : mid <:+ ts)
    (hr : rest <:+ mid) : (Stmt.forLoop init test update body).ComesPlain ts rest := by
  have hf := Grammar.formed_forLoop (fun s hs => (hi s hs).formed) ht.formed hu.formed
    ⟨hb.1.formed, hb.2⟩
  refine ⟨⟨hf.1, ?_, Stmt.leads_of_not_isDeclaration hf.2, fun x hx => ?_⟩, hf.2⟩
  · cases update with
    | none =>
      cases init with
      | none => exact hb.1.ordered
      | some s =>
        refine ⟨(hi s rfl).ordered, (hi s rfl).leads, fun s' hs' => ?_, hb.1.ordered,
          Stmt.leads_of_not_isDeclaration rfl, fun _ h => (by cases h), trivial⟩
        cases List.mem_singleton.1 hs'
        refine Stmt.precedes_of_between (hi s rfl).between (Between.append ?_ hb.1.between)
        cases test with
        | none => exact .nil
        | some e => exact (ht e rfl).2
    | some u =>
      have hround : Stmt.OrderedAll [body, .expression u] :=
        ⟨hb.1.ordered, hb.1.leads, fun s' hs' => by
          cases List.mem_singleton.1 hs'
          exact Stmt.precedes_of_not_isDeclaration hb.2 rfl,
          trivial, Stmt.leads_of_not_isDeclaration rfl, fun _ h => (by cases h), trivial⟩
      cases init with
      | none => exact hround
      | some s =>
        refine ⟨(hi s rfl).ordered, (hi s rfl).leads, fun s' hs' => ?_, hround,
          Stmt.leads_of_not_isDeclaration rfl, fun _ h => (by cases h), trivial⟩
        cases List.mem_singleton.1 hs'
        refine Stmt.precedes_of_between (hi s rfl).between (Between.append ?_
          (hb.1.between.append (Between.append (hu u rfl).2 .nil)))
        cases test with
        | none => exact .nil
        | some e => exact (ht e rfl).2
  · rcases Grammar.mem_nameTokens_forLoop hx with hx | hx | hx | hx
    · cases init with
      | none => cases hx
      | some s => exact (hi s rfl).between.till hr x hx
    · exact ht.between.since hl x hx
    · exact hu.between.since hl x hx
    · exact hb.1.between.since hl x hx

end

end Lox

import Lox.Proofs.Activation
import Lox.Proofs.Lexical
import Lox.Proofs.Spelling

/-!
# Programs without shadowing

A program is `Unshadowed` if no two of its local scopes declare the same name, no reference to a local
name is left to the globals, and no initializer of a local variable assigns to the variable. In such
a program a name tells its scope: between a reference and the scope that it is bound to, no scope
declares its name anywhere (`Stmt.Clear`).

Main statement: the bound statements of an unshadowed program are clear (`Program.clearAll_bound`).
-/

namespace Lox

/-! ## Local scopes -/

/-- The names that the scope of some parameters and statements declares. -/
def Stmt.localNames (params : List Token) (body : List Stmt) : List String :=
  (params ++ Stmt.declaredNames body).map (·.lexeme)

mutual

/-- The names of each local scope in a statement: those of the blocks and functions. -/
def Stmt.scopes : Stmt → List (List String)
  | .block body => Stmt.localNames [] body :: Stmt.scopesAll body
  | .ifThen _ yes => yes.scopes
  | .ifElse _ yes no => yes.scopes ++ no.scopes
  | .loop _ body => body.scopes
  | .function decl => FunDecl.scopes decl
  | .classDecl _ _ methods => FunDecl.scopesAll methods
  | .expression _ | .print _ | .var _ _ | .ret _ _ => []

def Stmt.scopesAll : List Stmt → List (List String)
  | [] => []
  | s :: ss => s.scopes ++ Stmt.scopesAll ss

def FunDecl.scopes : FunDecl Stmt → List (List String)
  | ⟨_, params, body⟩ => Stmt.localNames params body :: Stmt.scopesAll body

def FunDecl.scopesAll : List (FunDecl Stmt) → List (List String)
  | [] => []
  | d :: ds => FunDecl.scopes d ++ FunDecl.scopesAll ds

end

/-- A name tells its local scope (module doc). Whether it is the name of a global or of a native as
well makes no difference. -/
structure Program.Unshadowed (p : Program) : Prop where
  /-- Each name that is declared in some local scope is declared in only one. -/
  once : (Stmt.scopesAll p.statements).Pairwise List.Disjoint
  /-- Every reference to such a name is bound. -/
  bound : ∀ names ∈ Stmt.scopesAll p.statements, ∀ r ∈ Stmt.referencesAll p.bound,
    r.2.name ∈ names → r.2.hops.isSome = true
  /-- No initializer of a local variable assigns to it. -/
  own : Stmt.selfAssignmentsAll false p.bound = []

instance decidableDisjoint : DecidableRel (@List.Disjoint String) := fun l l' =>
  decidable_of_iff (∀ x ∈ l, x ∉ l') ⟨fun h _ hx hx' => h _ hx hx', fun h _ hx hx' => h hx hx'⟩

instance Program.decidableUnshadowed (p : Program) : Decidable p.Unshadowed :=
  decidable_of_iff
    ((Stmt.scopesAll p.statements).Pairwise List.Disjoint ∧
      (∀ names ∈ Stmt.scopesAll p.statements, ∀ r ∈ Stmt.referencesAll p.bound,
        r.2.name ∈ names → r.2.hops.isSome = true) ∧
      (Stmt.selfAssignmentsAll false p.bound).isEmpty = true)
    ⟨fun h => ⟨h.1, h.2.1, List.isEmpty_iff.1 h.2.2⟩,
      fun h => ⟨h.once, h.bound, List.isEmpty_iff.2 h.own⟩⟩

/-! ## Clear code -/

/-- The names around the methods of a class. -/
def withClassNames (derived : Bool) (outer : List (List String)) : List (List String) :=
  ["this"] :: if derived then ["super"] :: outer else outer

/-- The reference finds no scope that declares its name before the one it is bound to; nor does the
`this` that goes with a `super`, which is bound to the scope inside that of `super`. -/
def Reference.Clear (around : List (List String)) (r : Use × Reference) : Prop :=
  (∀ names ∈ around.take (r.2.hops.getD around.length), r.2.name ∉ names) ∧
    (r.1 = .superWord → r.2.name = "super" ∧
      ∀ names ∈ around.take (r.2.hops.getD 0 - 1), "this" ∉ names)

def Expr.Clear (around : List (List String)) (e : Expr) : Prop :=
  ∀ r ∈ e.references, Reference.Clear around r

/-- The innermost scope, unless it is that of the globals, declares the name. -/
def Declares (around : List (List String)) (name : Token) : Prop :=
  ∀ names ∈ around.head?, name.lexeme ∈ names

mutual

/-- The references of a statement are clear, in scopes of which all names are known from the
beginning. -/
def Stmt.Clear (around : List (List String)) : Stmt → Prop
  | .expression e | .print e => e.Clear around
  | .var name init => Declares around name ∧ ∀ e, init = some e → e.Clear around
  | .block body => Stmt.ClearAll (Stmt.localNames [] body :: around) body
  | .ifThen test yes => test.Clear around ∧ yes.Clear around
  | .ifElse test yes no => test.Clear around ∧ yes.Clear around ∧ no.Clear around
  | .loop test body => test.Clear around ∧ body.Clear around
  | .function decl => Declares around decl.name ∧ FunDecl.Clear around decl
  | .ret _ value => ∀ e, value = some e → e.Clear around
  | .classDecl name superclass methods =>
    Declares around name ∧ (∀ ref, superclass = some ref → Reference.Clear around (.read, ref)) ∧
      FunDecl.ClearAll (withClassNames superclass.isSome around) methods

def Stmt.ClearAll (around : List (List String)) : List Stmt → Prop
  | [] => True
  | s :: ss => s.Clear around ∧ Stmt.ClearAll around ss

def FunDecl.Clear (around : List (List String)) : FunDecl Stmt → Prop
  | ⟨_, params, body⟩ => Stmt.ClearAll (Stmt.localNames params body :: around) body

def FunDecl.ClearAll (around : List (List String)) : List (FunDecl Stmt) → Prop
  | [] => True
  | d :: ds => FunDecl.Clear around d ∧ FunDecl.ClearAll around ds

end

theorem FunDecl.Clear.body {around : List (List String)} {d : FunDecl Stmt}
    (h : FunDecl.Clear around d) :
    Stmt.ClearAll (Stmt.localNames d.params d.body :: around) d.body := by
  cases d
  exact h

theorem FunDecl.ClearAll.mem {around : List (List String)} {d : FunDecl Stmt} :
    ∀ {ds : List (FunDecl Stmt)}, FunDecl.ClearAll around ds → d ∈ ds → FunDecl.Clear around d
  | _ :: _, hd, hm => by
    rcases List.mem_cons.1 hm with rfl | hm
    · exact hd.1
    · exact hd.2.mem hm

/-! ## Open scopes and their names -/

namespace Scopes

/-- The open scopes have bound some of the names that are listed for them. The names of a local scope
are names of the program, and no local scope further out declares them. -/
inductive Listed (program : List (List String)) : Scopes → List (List String) → Prop
  | globals : Listed program [] []
  | word {σ around w} (hw : Heap.isWord w) (ho : Listed program σ around) :
      Listed program ([(w, true)] :: σ) ([w] :: around)
  | scope {σ around scope names} (hs : ∀ x, (scope.lookup x).isSome = true → x ∈ names)
      (hw : ∀ x ∈ names, ¬ Heap.isWord x) (hp : names ∈ program)
      (hd : ∀ outer ∈ around, ∀ x ∈ names, x ∈ outer → Heap.isWord x)
      (ho : Listed program σ around) : Listed program (scope :: σ) (names :: around)

/-- Inside a class with a superclass, the nearest `super` is in the scope around the nearest
`this`. -/
def Twin (c : ClassContext) (σ : Scopes) : Prop :=
  c = .derived → ∃ k, σ.hops? "this" = some k ∧ σ.hops? "super" = some (k + 1)

variable {program : List (List String)} {σ : Scopes} {c : ClassContext}
  {around : List (List String)} {x : String} {k : Nat}

theorem hops?_cons_eq_some {scope : Scope} (hk : hops? (scope :: σ) x = some k) :
    ((scope.lookup x).isSome = true ∧ k = 0) ∨
      (scope.lookup x = none ∧ ∃ j, σ.hops? x = some j ∧ k = j + 1) := by
  cases hl : scope.lookup x with
  | some ready =>
    simp only [hops?, hl, Option.isSome_some, if_true, Option.some.injEq] at hk
    exact .inl ⟨rfl, hk.symm⟩
  | none =>
    rw [hops?_cons_of_none hl] at hk
    obtain ⟨j, hj, he⟩ := Option.map_eq_some_iff.1 hk
    exact .inr ⟨rfl, j, hj, he.symm⟩

namespace Listed

/-- A name that is bound is listed. -/
theorem exists_mem (h : Listed program σ around) (hk : σ.hops? x = some k) :
    ∃ names ∈ around, x ∈ names := by
  induction h generalizing k with
  | globals => cases hk
  | @word σ around w hw ho ih =>
    rcases hops?_cons_eq_some hk with ⟨hl, -⟩ | ⟨-, j, hj, -⟩
    · refine ⟨[w], List.mem_cons_self, ?_⟩
      by_contra hne
      rw [lookup_word_of_ne (by simpa using hne)] at hl
      cases hl
    · obtain ⟨names, hm, hx⟩ := ih hj
      exact ⟨names, List.mem_cons_of_mem _ hm, hx⟩
  | scope hs hw hp hd ho ih =>
    rcases hops?_cons_eq_some hk with ⟨hl, -⟩ | ⟨-, j, hj, -⟩
    · exact ⟨_, List.mem_cons_self, hs x hl⟩
    · obtain ⟨names, hm, hx⟩ := ih hj
      exact ⟨names, List.mem_cons_of_mem _ hm, hx⟩

/-- No scope inside the one that binds a name declares it. -/
theorem clear_of_hops (h : Listed program σ around) (hk : σ.hops? x = some k) :
    ∀ names ∈ around.take k, x ∉ names := by
  induction h generalizing k with
  | globals => cases hk
  | @word σ around w hw ho ih =>
    rcases hops?_cons_eq_some hk with ⟨-, rfl⟩ | ⟨hl, j, hj, rfl⟩
    · simp
    rw [List.take_succ_cons, List.forall_mem_cons]
    refine ⟨fun hx => ?_, ih hj⟩
    rw [List.mem_singleton.1 hx] at hl
    simp at hl
  | scope hs hw hp hd ho ih =>
    rcases hops?_cons_eq_some hk with ⟨-, rfl⟩ | ⟨-, j, hj, rfl⟩
    · simp
    rw [List.take_succ_cons, List.forall_mem_cons]
    refine ⟨fun hx => ?_, ih hj⟩
    -- the name would be declared in two scopes
    obtain ⟨outer, hm, hx'⟩ := ho.exists_mem hj
    exact hw x hx (hd outer hm x hx hx')

/-- Nor does any scope declare a name that no scope binds and that is not local. -/
theorem clear_of_none (h : Listed program σ around) (hk : σ.hops? x = none)
    (hx : ∀ names ∈ program, x ∉ names) : ∀ names ∈ around, x ∉ names := by
  induction h with
  | globals => simp
  | @word σ around w hw ho ih =>
    cases hl : ([(w, true)] : Scope).lookup x with
    | some ready => simp [hops?, hl] at hk
    | none =>
      rw [hops?_cons_of_none hl, Option.map_eq_none_iff] at hk
      rw [List.forall_mem_cons]
      refine ⟨fun hm => ?_, ih hk⟩
      rw [List.mem_singleton.1 hm] at hl
      simp at hl
  | @scope σ around scope names hs hw hp hd ho ih =>
    cases hl : scope.lookup x with
    | some ready => simp [hops?, hl] at hk
    | none =>
      rw [hops?_cons_of_none hl, Option.map_eq_none_iff] at hk
      rw [List.forall_mem_cons]
      exact ⟨hx names hp, ih hk⟩

/-- One more name of the innermost scope is bound. -/
theorem declare (h : Listed program σ around) {name : Token} (hn : Declares around name)
    (hw : ¬ Heap.isWord name.lexeme) (ready : Bool) :
    Listed program (σ.declare name ready) around := by
  cases h with
  | globals => exact .globals
  | word hword ho =>
    -- a class scope declares its own word only
    rw [← List.mem_singleton.1 (hn _ rfl)] at hword
    exact absurd hword hw
  | @scope σ around scope names hs hw' hp hd ho =>
    refine .scope (fun x hx => ?_) hw' hp hd ho
    rcases (isSome_lookup_cons scope name ready x).1 hx with rfl | hx
    · exact hn names rfl
    · exact hs x hx

end Listed

namespace Twin

theorem scope (h : Twin c σ) {scope : Scope}
    (hw : ∀ x, Heap.isWord x → scope.lookup x = none) : Twin c (scope :: σ) := by
  intro hc
  obtain ⟨k, hthis, hsuper⟩ := h hc
  refine ⟨k + 1, ?_, ?_⟩
  · rw [hops?_cons_of_none (hw _ (.inl rfl)), hthis]
    rfl
  · rw [hops?_cons_of_none (hw _ (.inr rfl)), hsuper]
    rfl

theorem cls (σ : Scopes) (derived : Bool) :
    Twin (if derived then .derived else .plain) (σ.withClass derived) := by
  cases derived with
  | true => exact fun _ => ⟨0, rfl, rfl⟩
  | false => exact fun hc => by cases hc

theorem declare (h : Twin c σ) {name : Token} (hw : ¬ Heap.isWord name.lexeme) (ready : Bool) :
    Twin c (σ.declare name ready) := by
  have hother : ∀ x, Heap.isWord x → (σ.declare name ready).hops? x = σ.hops? x := by
    intro x hx
    rw [hops?_eq, hops?_eq, find?_declare_of_ne]
    rintro rfl
    exact hw hx
  intro hc
  obtain ⟨k, hthis, hsuper⟩ := h hc
  exact ⟨k, (hother _ (.inl rfl)).trans hthis, (hother _ (.inr rfl)).trans hsuper⟩

end Twin

end Scopes

/-! ## Bound code is clear -/

/-- No reference to a name of the program's local scopes is left to the globals. -/
def LocalsBound (program : List (List String)) (refs : List (Use × Reference)) : Prop :=
  ∀ r ∈ refs, r.2.hops = none → ∀ names ∈ program, r.2.name ∉ names

theorem LocalsBound.append {program : List (List String)} {refs refs' : List (Use × Reference)} :
    LocalsBound program (refs ++ refs') ↔ LocalsBound program refs ∧ LocalsBound program refs' :=
  List.forall_mem_append

section
variable {program : List (List String)} {σ : Scopes} {c : ClassContext}
  {around : List (List String)}

theorem Reference.clear_bind (hl : σ.Listed program around) (use : Use) (ref : Reference)
    (hg : LocalsBound program [(use, ref.bind σ)])
    (hs : use = .superWord → ref.name = "super" ∧
      ∃ k, σ.hops? "this" = some k ∧ σ.hops? "super" = some (k + 1)) :
    Reference.Clear around (use, ref.bind σ) := by
  refine ⟨?_, fun hu => ?_⟩
  · cases hk : σ.hops? ref.name with
    | some k =>
      have hhops : (ref.bind σ).hops = some k := hk
      rw [hhops]
      exact hl.clear_of_hops hk
    | none =>
      have hhops : (ref.bind σ).hops = none := hk
      rw [hhops, Option.getD_none, List.take_length]
      exact hl.clear_of_none hk (hg _ List.mem_cons_self hhops)
  · obtain ⟨hname, k, hthis, hsuper⟩ := hs hu
    have hhops : (ref.bind σ).hops = some (k + 1) := by rw [Reference.bind, hname, hsuper]
    rw [hhops]
    exact ⟨hname, hl.clear_of_hops hthis⟩

mutual

theorem Expr.clear_bind (hl : σ.Listed program around) (ht : σ.Twin c) :
    ∀ e : Expr, e.Formed → e.violations c σ = [] →
      LocalsBound program (e.bind σ).references → (e.bind σ).Clear around
  | .literal _, _, _, _ => List.forall_mem_nil _
  | .group inner, hf, hv, hg => Expr.clear_bind hl ht inner hf hv hg
  | .unary _ _ right, hf, hv, hg => Expr.clear_bind hl ht right hf hv hg
  | .binary _ _ left right, hf, hv, hg | .logical _ _ left right, hf, hv, hg => by
    obtain ⟨hvl, hvr⟩ := List.append_eq_nil_iff.1 hv
    obtain ⟨hgl, hgr⟩ := LocalsBound.append.1 hg
    exact List.forall_mem_append.2
      ⟨Expr.clear_bind hl ht left hf.1 hvl hgl, Expr.clear_bind hl ht right hf.2 hvr hgr⟩
  | .name ref, _, _, hg =>
    List.forall_mem_singleton.2 (ref.clear_bind hl .read hg nofun)
  | .assign ref value, hf, hv, hg => by
    obtain ⟨hgr, hgv⟩ := List.forall_mem_cons.1 hg
    have href : LocalsBound program [(.assign, ref.bind σ)] := List.forall_mem_singleton.2 hgr
    exact List.forall_mem_cons.2 ⟨ref.clear_bind hl .assign href nofun,
      Expr.clear_bind hl ht value hf.2 hv hgv⟩
  | .call callee _ args, hf, hv, hg => by
    obtain ⟨hvc, hva⟩ := List.append_eq_nil_iff.1 hv
    obtain ⟨hgc, hga⟩ := LocalsBound.append.1 hg
    exact List.forall_mem_append.2
      ⟨Expr.clear_bind hl ht callee hf.1 hvc hgc, Expr.clear_bindAll hl ht args hf.2 hva hga⟩
  | .get object _, hf, hv, hg => Expr.clear_bind hl ht object hf hv hg
  | .set object _ value, hf, hv, hg => by
    obtain ⟨hvv, hvo⟩ := List.append_eq_nil_iff.1 hv
    obtain ⟨hgo, hgv⟩ := LocalsBound.append.1 hg
    exact List.forall_mem_append.2
      ⟨Expr.clear_bind hl ht object hf.1 hvo hgo, Expr.clear_bind hl ht value hf.2 hvv hgv⟩
  | .thisRef ref, _, _, hg =>
    List.forall_mem_singleton.2 (ref.clear_bind hl .thisWord hg nofun)
  | .superRef ref _, hf, hv, hg => by
    refine List.forall_mem_singleton.2 (ref.clear_bind hl .superWord hg fun _ => ⟨hf, ?_⟩)
    cases c with
    | derived => exact ht rfl
    | outside | plain => cases hv

theorem Expr.clear_bindAll (hl : σ.Listed program around) (ht : σ.Twin c) :
    ∀ es : List Expr, Expr.FormedAll es → Expr.violationsAll c σ es = [] →
      LocalsBound program (Expr.referencesAll (Expr.bindAll σ es)) →
      ∀ r ∈ Expr.referencesAll (Expr.bindAll σ es), Reference.Clear around r
  | [], _, _, _ => List.forall_mem_nil _
  | e :: es, hf, hv, hg => by
    obtain ⟨hve, hves⟩ := List.append_eq_nil_iff.1 hv
    obtain ⟨hge, hges⟩ := LocalsBound.append.1 hg
    exact List.forall_mem_append.2
      ⟨Expr.clear_bind hl ht e hf.1 hve hge, Expr.clear_bindAll hl ht es hf.2 hves hges⟩

end

end

/-- The local scopes of a piece of the program: their names are names of the program, and no two of
them, or of them and the scopes around, share one. -/
structure Apart (program around scopes : List (List String)) : Prop where
  mem : ∀ names ∈ scopes, names ∈ program
  once : scopes.Pairwise List.Disjoint
  around : ∀ names ∈ scopes, ∀ outer ∈ around, ∀ x ∈ names, x ∈ outer → Heap.isWord x

namespace Apart

variable {program around scopes scopes' : List (List String)} {names : List String}

theorem append (h : Apart program around (scopes ++ scopes')) :
    Apart program around scopes ∧ Apart program around scopes' := by
  obtain ⟨hl, hr, -⟩ := List.pairwise_append.1 h.once
  exact ⟨⟨fun n hn => h.mem n (List.mem_append_left _ hn), hl,
      fun n hn => h.around n (List.mem_append_left _ hn)⟩,
    ⟨fun n hn => h.mem n (List.mem_append_right _ hn), hr,
      fun n hn => h.around n (List.mem_append_right _ hn)⟩⟩

/-- The scopes inside a scope. -/
theorem enter (h : Apart program around (names :: scopes)) :
    Apart program (names :: around) scopes := by
  obtain ⟨hnames, honce⟩ := List.pairwise_cons.1 h.once
  refine ⟨fun n hn => h.mem n (List.mem_cons_of_mem _ hn), honce, fun n hn outer ho x hx hxo => ?_⟩
  rcases List.mem_cons.1 ho with rfl | ho
  · exact absurd hx (hnames n hn hxo)
  · exact h.around n (List.mem_cons_of_mem _ hn) outer ho x hx hxo

theorem enterClass (h : Apart program around scopes) (derived : Bool) :
    Apart program (withClassNames derived around) scopes := by
  refine ⟨h.mem, h.once, fun n hn outer ho x hx hxo => ?_⟩
  rcases List.mem_cons.1 ho with rfl | ho
  · exact .inl (List.mem_singleton.1 hxo)
  cases derived with
  | false => exact h.around n hn outer ho x hx hxo
  | true =>
    rcases List.mem_cons.1 ho with rfl | ho
    · exact .inr (List.mem_singleton.1 hxo)
    · exact h.around n hn outer ho x hx hxo

end Apart

theorem Stmt.Formed.name {s : Stmt} (hf : s.Formed) {d : Token} (hd : s.name? = some d) :
    ¬ Heap.isWord d.lexeme := by
  cases s with
  | var | classDecl => cases hd; exact hf.1
  | function decl => cases decl; cases hd; exact hf.1
  | _ => cases hd

theorem Stmt.FormedAll.mem : ∀ {ss : List Stmt}, Stmt.FormedAll ss → ∀ s ∈ ss, s.Formed
  | [], _ => List.forall_mem_nil _
  | _ :: _, h => List.forall_mem_cons.2 ⟨h.1, Stmt.FormedAll.mem h.2⟩

theorem Stmt.not_isWord_localNames {params : List Token} {body : List Stmt}
    (hp : ∀ p ∈ params, ¬ Heap.isWord p.lexeme) (hb : Stmt.FormedAll body) :
    ∀ x ∈ Stmt.localNames params body, ¬ Heap.isWord x := by
  intro x hx
  obtain ⟨d, hd, rfl⟩ := List.mem_map.1 hx
  rcases List.mem_append.1 hd with hd | hd
  · exact hp d hd
  · obtain ⟨s, hs, hname⟩ := Stmt.mem_declaredNames.1 hd
    exact (hb.mem s hs).name hname

namespace Scopes

variable {program : List (List String)} {σ : Scopes} {c : ClassContext}
  {around : List (List String)}

theorem Listed.stmt (h : Listed program σ around) {s : Stmt} (hf : s.Formed)
    (hd : ∀ d ∈ s.name?, Declares around d) : Listed program (s.declare σ) around := by
  rw [Stmt.declare_eq]
  cases hn : s.name? with
  | none => exact h
  | some d => exact h.declare (hd d hn) (hf.name hn) true

theorem Twin.stmt (h : Twin c σ) {s : Stmt} (hf : s.Formed) : Twin c (s.declare σ) := by
  rw [Stmt.declare_eq]
  cases hn : s.name? with
  | none => exact h
  | some d => exact h.declare (hf.name hn) true

theorem Listed.cls (h : Listed program σ around) (derived : Bool) :
    Listed program (σ.withClass derived) (withClassNames derived around) := by
  cases derived with
  | true => exact .word (.inl rfl) (.word (.inr rfl) h)
  | false => exact .word (.inl rfl) h

/-- A function opens the scope of its parameters and its body. -/
theorem Listed.function (h : Listed program σ around) {params : List Token} {body : List Stmt}
    {scopes : List (List String)}
    (hp : ∀ p ∈ params, ¬ Heap.isWord p.lexeme) (hb : Stmt.FormedAll body)
    (ha : Apart program around (Stmt.localNames params body :: scopes)) :
    Listed program (σ.withParams params) (Stmt.localNames params body :: around) := by
  obtain ⟨scope, hk, he⟩ := exists_withParams σ params
  rw [he]
  refine .scope (fun x hx => ?_) (Stmt.not_isWord_localNames hp hb) (ha.mem _ List.mem_cons_self)
    (ha.around _ List.mem_cons_self) h
  obtain ⟨d, hd, rfl⟩ := (hk x).1 hx
  exact List.mem_map_of_mem (List.mem_append_left _ hd)

theorem Twin.function (h : Twin c σ) {params : List Token}
    (hp : ∀ p ∈ params, ¬ Heap.isWord p.lexeme) : Twin c (σ.withParams params) := by
  obtain ⟨scope, hk, he⟩ := exists_withParams σ params
  rw [he]
  refine h.scope fun x hx => ?_
  rw [← Option.not_isSome_iff_eq_none, hk x]
  rintro ⟨d, hd, rfl⟩
  exact hp d hd hx

end Scopes

theorem Stmt.name?_bind (σ : Scopes) (s : Stmt) : (s.bind σ).name? = s.name? := by
  cases s with
  | function decl => cases decl; rfl
  | _ => rfl

theorem Stmt.declaredNames_bindAll (ss : List Stmt) :
    ∀ σ : Scopes, Stmt.declaredNames (Stmt.bindAll σ ss) = Stmt.declaredNames ss := by
  induction ss with
  | nil => exact fun _ => rfl
  | cons s ss ih =>
    intro σ
    rw [Stmt.bindAll, Stmt.declaredNames_cons, Stmt.declaredNames_cons, Stmt.name?_bind, ih]

theorem Stmt.localNames_bindAll (σ : Scopes) (params : List Token) (ss : List Stmt) :
    Stmt.localNames params (Stmt.bindAll σ ss) = Stmt.localNames params ss := by
  rw [Stmt.localNames, Stmt.declaredNames_bindAll, Stmt.localNames]

theorem declares_localNames {params : List Token} {body : List Stmt}
    {around : List (List String)} :
    ∀ d ∈ Stmt.declaredNames body, Declares (Stmt.localNames params body :: around) d := by
  rintro d hd names ⟨⟩
  exact List.mem_map_of_mem (List.mem_append_right _ hd)

theorem declares_of_not_isDeclaration {s : Stmt} {around : List (List String)}
    (h : s.isDeclaration = false) : ∀ d ∈ s.name?, Declares around d := by
  rw [Stmt.name?_eq_none h]
  exact nofun

section
variable {program : List (List String)}

mutual

theorem Stmt.clear_bind {σ : Scopes} {f : FunctionContext} {c : ClassContext}
    {around : List (List String)} (hl : σ.Listed program around) (ht : σ.Twin c) :
    ∀ s : Stmt, s.Formed → s.violations f c σ = [] → LocalsBound program (s.bind σ).references →
      Apart program around s.scopes → (∀ d ∈ s.name?, Declares around d) →
      (s.bind σ).Clear around
  | .expression e, hf, hv, hg, _, _ | .print e, hf, hv, hg, _, _ => e.clear_bind hl ht hf hv hg
  | .var name init, hf, hv, hg, _, hd => by
    have hn := hd name rfl
    refine ⟨hn, fun e' he => ?_⟩
    obtain ⟨e, rfl, rfl⟩ := Option.map_eq_some_iff.1 he
    exact e.clear_bind (hl.declare hn hf.1 false) (ht.declare hf.1 false) (hf.2 e rfl)
      (List.append_eq_nil_iff.1 hv).2 hg
  | .block body, hf, hv, hg, ha, _ => by
    have hbody := Stmt.clearAll_bindAll (hl.function (List.forall_mem_nil _) hf ha)
      (ht.scope fun _ _ => rfl) body hf hv hg ha.enter declares_localNames
    rw [Stmt.bind, Stmt.Clear, Stmt.localNames_bindAll]
    exact hbody
  | .ifThen test yes, hf, hv, hg, ha, _ => by
    obtain ⟨hvt, hvy⟩ := List.append_eq_nil_iff.1 hv
    obtain ⟨hgt, hgy⟩ := LocalsBound.append.1 hg
    exact ⟨test.clear_bind hl ht hf.1 hvt hgt,
      Stmt.clear_bind hl ht yes hf.2.1 hvy hgy ha (declares_of_not_isDeclaration hf.2.2)⟩
  | .ifElse test yes no, hf, hv, hg, ha, _ => by
    obtain ⟨hvty, hvn⟩ := List.append_eq_nil_iff.1 hv
    obtain ⟨hvt, hvy⟩ := List.append_eq_nil_iff.1 hvty
    obtain ⟨hgty, hgn⟩ := LocalsBound.append.1 hg
    obtain ⟨hgt, hgy⟩ := LocalsBound.append.1 hgty
    obtain ⟨hft, ⟨hfy, hdy⟩, hfn, hdn⟩ := hf
    exact ⟨test.clear_bind hl ht hft hvt hgt,
      Stmt.clear_bind hl ht yes hfy hvy hgy ha.append.1 (declares_of_not_isDeclaration hdy),
      Stmt.clear_bind hl ht no hfn hvn hgn ha.append.2 (declares_of_not_isDeclaration hdn)⟩
  | .loop test body, hf, hv, hg, ha, _ => by
    obtain ⟨hvt, hvb⟩ := List.append_eq_nil_iff.1 hv
    obtain ⟨hgt, hgb⟩ := LocalsBound.append.1 hg
    exact ⟨test.clear_bind hl ht hf.1 hvt hgt,
      Stmt.clear_bind hl ht body hf.2.1 hvb hgb ha (declares_of_not_isDeclaration hf.2.2)⟩
  | .function ⟨name, params, body⟩, hf, hv, hg, ha, hd => by
    have hn := hd name rfl
    exact ⟨hn, FunDecl.clear_bind (hl.declare hn hf.1 true) (ht.declare hf.1 true) _ hf
      (List.append_eq_nil_iff.1 hv).2 hg ha⟩
  | .ret _ value, hf, hv, hg, _, _ => by
    intro e' he
    obtain ⟨e, rfl, rfl⟩ := Option.map_eq_some_iff.1 he
    exact e.clear_bind hl ht (hf e rfl) (List.append_eq_nil_iff.1 hv).2 hg
  | .classDecl name superclass methods, hf, hv, hg, ha, hd => by
    have hn := hd name rfl
    have hl' := hl.declare hn hf.1 true
    have hvm := (List.append_eq_nil_iff.1 hv).2
    cases superclass with
    | none =>
      exact ⟨hn, nofun, FunDecl.clearAll_bindAll (hl'.cls false) (.cls _ false) methods hf.2.2 hvm hg
        (ha.enterClass false)⟩
    | some ref =>
      obtain ⟨hgr, hgm⟩ := List.forall_mem_cons.1 hg
      refine ⟨hn, ?_, FunDecl.clearAll_bindAll (hl'.cls true) (.cls _ true) methods hf.2.2 hvm hgm
        (ha.enterClass true)⟩
      rintro _ ⟨⟩
      exact ref.clear_bind hl' .read (List.forall_mem_singleton.2 hgr) nofun

theorem Stmt.clearAll_bindAll {σ : Scopes} {f : FunctionContext} {c : ClassContext}
    {around : List (List String)} (hl : σ.Listed program around) (ht : σ.Twin c) :
    ∀ ss : List Stmt, Stmt.FormedAll ss → Stmt.violationsAll f c σ ss = [] →
      LocalsBound program (Stmt.referencesAll (Stmt.bindAll σ ss)) →
      Apart program around (Stmt.scopesAll ss) →
      (∀ d ∈ Stmt.declaredNames ss, Declares around d) →
      Stmt.ClearAll around (Stmt.bindAll σ ss)
  | [], _, _, _, _, _ => trivial
  | s :: ss, hf, hv, hg, ha, hd => by
    obtain ⟨hvs, hvss⟩ := List.append_eq_nil_iff.1 hv
    obtain ⟨hgs, hgss⟩ := LocalsBound.append.1 hg
    rw [Stmt.declaredNames_cons, List.forall_mem_append] at hd
    have hn : ∀ d ∈ s.name?, Declares around d := fun d h => hd.1 d (Option.mem_toList.2 h)
    exact ⟨Stmt.clear_bind hl ht s hf.1 hvs hgs ha.append.1 hn,
      Stmt.clearAll_bindAll (hl.stmt hf.1 hn) (ht.stmt hf.1) ss hf.2 hvss hgss ha.append.2 hd.2⟩

theorem FunDecl.clear_bind {σ : Scopes} {f : FunctionContext} {c : ClassContext}
    {around : List (List String)} (hl : σ.Listed program around) (ht : σ.Twin c) :
    ∀ d : FunDecl Stmt, FunDecl.Formed d → FunDecl.violations f c σ d = [] →
      LocalsBound program (FunDecl.references (FunDecl.bind σ d)) →
      Apart program around (FunDecl.scopes d) → FunDecl.Clear around (FunDecl.bind σ d)
  | ⟨_, params, body⟩, hf, hv, hg, ha => by
    have hbody := Stmt.clearAll_bindAll (hl.function hf.2.1 hf.2.2 ha) (ht.function hf.2.1) body
      hf.2.2 (List.append_eq_nil_iff.1 hv).2 hg ha.enter declares_localNames
    rwa [FunDecl.bind, FunDecl.Clear, Stmt.localNames_bindAll]

theorem FunDecl.clearAll_bindAll {σ : Scopes} {c : ClassContext}
    {around : List (List String)} (hl : σ.Listed program around) (ht : σ.Twin c) :
    ∀ ds : List (FunDecl Stmt), FunDecl.FormedAll ds → FunDecl.violationsAll c σ ds = [] →
      LocalsBound program (FunDecl.referencesAll (FunDecl.bindAll σ ds)) →
      Apart program around (FunDecl.scopesAll ds) →
      FunDecl.ClearAll around (FunDecl.bindAll σ ds)
  | [], _, _, _, _ => trivial
  | d :: ds, hf, hv, hg, ha => by
    obtain ⟨hvd, hvds⟩ := List.append_eq_nil_iff.1 hv
    obtain ⟨hgd, hgds⟩ := LocalsBound.append.1 hg
    exact ⟨FunDecl.clear_bind hl ht d hf.1 hvd hgd ha.append.1,
      FunDecl.clearAll_bindAll hl ht ds hf.2 hvds hgds ha.append.2⟩

end

/-- **In an unshadowed program names tell their scopes**: the bound statements of an accepted one are
clear. -/
theorem Program.clearAll_bound {source : String} (ha : (Program.compile source).Accepted)
    (hu : (Program.compile source).Unshadowed) :
    Stmt.ClearAll [] (Program.compile source).bound := by
  have htwin : Scopes.Twin .outside [] := nofun
  have hapart : Apart (Stmt.scopesAll (Program.compile source).statements) []
      (Stmt.scopesAll (Program.compile source).statements) :=
    ⟨fun _ => id, hu.once, fun _ _ _ h => by cases h⟩
  refine Stmt.clearAll_bindAll .globals htwin _ (Program.formed ha.diagnostics) ha.violations
    (fun r hr hn names hm hx => ?_) hapart fun _ _ _ h => by cases h
  have hsome := hu.bound names hm r hr hx
  rw [hn] at hsome
  cases hsome

end

end Lox

import Lox.Proofs.Alike
import Lox.Proofs.Occurrence
import Lox.Proofs.Relabel

/-!
# Binding a tree with other names

If the names that stand for a variable `d` get the fresh name `y`, and all others stay, then binding
finds the same scopes as before: the scope of `d` has `y` where it had the name of `d`, and no scope
in between has either. So the two bound trees are alike, and the new one breaks no static rule that
the old one does not break (`Stmt.rebindAll`).

`Scopes.retitle` is what becomes of the open scopes on the way, `titles` what becomes of their names.
-/

namespace Lox

/-! ## Scopes with other names -/

/-- Where a scope is, seen from one scope further out. -/
def outward : Option Nat → Option Nat
  | some (k + 1) => some k
  | _ => none

theorem outward_inward (d : Token) (vars : List Token) (out : Option Nat) :
    outward (inward d vars out) = out := by
  cases out with
  | some k => rfl
  | none => by_cases hd : d ∈ vars <;> simp [inward, hd, outward]

section
variable (μ : Renaming)

/-- The renaming of the innermost scope, where `out` tells which scope is renamed by `μ`. -/
def title (out : Option Nat) : Renaming := if out = some 0 then μ else .refl String

/-- The renamings of a number of scopes, innermost first. -/
def titles : Option Nat → Nat → List Renaming
  | _, 0 => []
  | out, n + 1 => title μ out :: titles (outward out) n

/-- The scopes under their renamings. -/
def Scopes.retitle : Option Nat → Scopes → Scopes
  | _, [] => []
  | out, scope :: outer => Table.rename (title μ out) scope :: retitle (outward out) outer

end

theorem title_of_ne (μ : Renaming) {out : Option Nat} (h : out ≠ some 0) :
    title μ out = .refl String := if_neg h

theorem innermost_titles (μ : Renaming) {out : Option Nat} {n : Nat}
    (h : ∀ k, out = some k → k < n) : innermost (titles μ out n) = title μ out := by
  cases n with
  | zero => exact (title_of_ne μ fun ho => absurd (h 0 ho) (Nat.lt_irrefl 0)).symm
  | succ n => rfl

theorem fair_title {K : Likeness} {μ : Renaming} (h : μ.Fair K) (out : Option Nat) :
    (title μ out).Fair K := by
  unfold title
  split
  · exact h
  · exact Renaming.fair_refl K

/-- No scope has the name. -/
def Scopes.Lacks (y : String) (σ : Scopes) : Prop := ∀ scope ∈ σ, scope.lookup y = none

/-- The name that stands in the place of `n`. -/
def renamedTo (d : Token) (y n : String) (b : Bool) : String :=
  if b then Equiv.swap d.lexeme y n else n

section
variable {d : Token} {y : String}

theorem swap_of_ne {n : String} (hx : n ≠ d.lexeme) (hy : n ≠ y) :
    Equiv.swap d.lexeme y n = n := Equiv.swap_apply_of_ne_of_ne hx hy

/-- A scope that has neither `n` nor `y` has neither after the renaming. -/
theorem lookup_retitle_none {scope : Scope} {n : String} (hs : scope.lookup y = none)
    (hy : n ≠ y) (hn : scope.lookup n = none) (out : Option Nat) (b : Bool) :
    (Table.rename (title (Equiv.swap d.lexeme y) out) scope).lookup (renamedTo d y n b) = none := by
  have hswap : scope.lookup (Equiv.swap d.lexeme y n) = none := by
    by_cases hx : n = d.lexeme
    · rw [hx, Equiv.swap_apply_left, hs]
    · rw [swap_of_ne hx hy, hn]
  have hboth : ∀ m, m = n ∨ m = Equiv.swap d.lexeme y n → scope.lookup m = none := by
    rintro m (rfl | rfl)
    · exact hn
    · exact hswap
  -- the looked-up name is the renaming of one of the two names that the scope lacks
  have hpre : ∃ m, (m = n ∨ m = Equiv.swap d.lexeme y n) ∧
      renamedTo d y n b = title (Equiv.swap d.lexeme y) out m := by
    unfold title renamedTo
    by_cases ho : out = some 0
    · rw [if_pos ho]
      cases b with
      | true => exact ⟨n, .inl rfl, rfl⟩
      | false => exact ⟨_, .inr rfl, (Equiv.swap_apply_self ..).symm⟩
    · rw [if_neg ho]
      cases b with
      | true => exact ⟨_, .inr rfl, rfl⟩
      | false => exact ⟨n, .inl rfl, rfl⟩
  obtain ⟨m, hm, he⟩ := hpre
  rw [he, Table.lookup_rename, hboth m hm]

/-- Whether a name, looked up in the scopes `σ`, is found in the scope `out` and is the name
of `d`. -/
def Scopes.leadsTo (d : Token) (out : Option Nat) (σ : Scopes) (n : String) : Bool :=
  (σ.hops? n).isSome && σ.hops? n == out && n == d.lexeme

theorem Scopes.hops?_cons_of_some {scope : Scope} {σ : Scopes} {n : String} {r : Bool}
    (h : scope.lookup n = some r) : Scopes.hops? (scope :: σ) n = some 0 := by
  simp [Scopes.hops?, h]

theorem Scopes.hops?_cons_of_none {scope : Scope} {σ : Scopes} {n : String}
    (h : scope.lookup n = none) :
    Scopes.hops? (scope :: σ) n = (σ.hops? n).map (· + 1) := by
  simp [Scopes.hops?, h]

theorem Scopes.leadsTo_cons_of_none {scope : Scope} {σ : Scopes} {n : String}
    (h : scope.lookup n = none) (out : Option Nat) :
    Scopes.leadsTo d out (scope :: σ) n = Scopes.leadsTo d (outward out) σ n := by
  unfold Scopes.leadsTo
  rw [Scopes.hops?_cons_of_none h]
  cases σ.hops? n with
  | none => rfl
  | some k =>
    cases out with
    | none => rfl
    | some j =>
      cases j with
      | zero => rfl
      | succ j => simp [outward]

/-- The new name is found in the scope in which the old one was found. -/
theorem Scopes.hops?_retitle {n : String} (hy : n ≠ y) : ∀ (out : Option Nat) {σ : Scopes},
    σ.Lacks y →
    (σ.retitle (Equiv.swap d.lexeme y) out).hops? (renamedTo d y n (σ.leadsTo d out n)) = σ.hops? n ∧
      (σ.hops? n = none → renamedTo d y n (σ.leadsTo d out n) = n) ∧
      ∀ k, σ.hops? n = some k → ∃ ν, (titles (Equiv.swap d.lexeme y) out σ.length)[k]? = some ν ∧
        renamedTo d y n (σ.leadsTo d out n) = ν n
  | _, [], _ => ⟨rfl, fun _ => rfl, fun k hk => by cases hk⟩
  | out, scope :: σ, hl => by
    cases hs : scope.lookup n with
    | some r =>
      have hhops := Scopes.hops?_cons_of_some (σ := σ) hs
      have hname : renamedTo d y n (Scopes.leadsTo d out (scope :: σ) n) =
          title (Equiv.swap d.lexeme y) out n := by
        unfold renamedTo Scopes.leadsTo title
        rw [hhops]
        by_cases ho : out = some 0
        · rw [if_pos ho]
          by_cases hx : n = d.lexeme
          · simp [ho, hx]
          · simp [hx, swap_of_ne hx hy]
        · have ho' : (some 0 == out) = false := by
            rw [beq_eq_false_iff_ne]
            exact fun h => ho h.symm
          simp [ho', if_neg ho]
      rw [hname, hhops]
      refine ⟨?_, (fun h => by cases h), fun k hk => ?_⟩
      · exact Scopes.hops?_cons_of_some ((Table.lookup_rename ..).trans hs)
      · cases hk
        exact ⟨_, rfl, rfl⟩
    | none =>
      obtain ⟨h1, h2, h3⟩ := Scopes.hops?_retitle hy (outward out) (σ := σ)
        fun s hm => hl s (List.mem_cons_of_mem _ hm)
      have hnone := lookup_retitle_none (d := d) (hl scope List.mem_cons_self) hy hs out
        (Scopes.leadsTo d (outward out) σ n)
      rw [Scopes.leadsTo_cons_of_none hs, Scopes.hops?_cons_of_none hs]
      refine ⟨?_, fun h => h2 (Option.map_eq_none_iff.1 h), fun k hk => ?_⟩
      · exact (Scopes.hops?_cons_of_none hnone).trans (congrArg _ h1)
      · obtain ⟨j, hj, rfl⟩ := Option.map_eq_some_iff.1 hk
        exact h3 j hj

/-- What the innermost scope knows about a name stays. -/
theorem Scopes.here?_retitle {n : String} (hy : n ≠ y) (out : Option Nat) {σ : Scopes}
    (hl : σ.Lacks y) :
    (σ.retitle (Equiv.swap d.lexeme y) out).here? (renamedTo d y n (σ.leadsTo d out n)) =
      σ.here? n := by
  cases σ with
  | nil => rfl
  | cons scope σ =>
    change (Table.rename _ scope).lookup _ = scope.lookup n
    cases hs : scope.lookup n with
    | some r =>
      obtain ⟨-, -, h3⟩ := Scopes.hops?_retitle (d := d) hy out hl
      obtain ⟨ν, hν, hn⟩ := h3 0 (Scopes.hops?_cons_of_some hs)
      cases hν
      rw [hn, Table.lookup_rename, hs]
    | none =>
      exact lookup_retitle_none (hl scope List.mem_cons_self) hy hs out _

end

/-! ## Expressions -/

/-- The relabelling gives the names that stand for `d` the name `y`, which is fresh, and keeps all
others. -/
def Renames (φ : Token → Token) (d : Token) (y : String) (names : List (Token × Bool)) : Prop :=
  ∀ p ∈ names, p.1.lexeme ≠ y ∧ (φ p.1).lexeme = renamedTo d y p.1.lexeme p.2

/-- What is asked of a relabelling besides the names. -/
structure Retitles (K : Likeness) (φ : Token → Token) (d : Token) (y : String) : Prop where
  level : ∀ t : Token, t.Level K (φ t)
  fair : Renaming.Fair K (Equiv.swap d.lexeme y)
  notWord : ¬ Heap.isWord d.lexeme
  freshWord : ¬ Heap.isWord y

section
variable {K : Likeness} {φ : Token → Token} {d : Token} {y : String} {σ : Scopes} {out : Option Nat}

theorem Renames.head {p : Token × Bool} {names : List (Token × Bool)}
    (h : Renames φ d y (p :: names)) :
    p.1.lexeme ≠ y ∧ (φ p.1).lexeme = renamedTo d y p.1.lexeme p.2 := h p List.mem_cons_self

theorem Renames.tail {p : Token × Bool} {names : List (Token × Bool)}
    (h : Renames φ d y (p :: names)) : Renames φ d y names :=
  fun q hq => h q (List.mem_cons_of_mem _ hq)

theorem Renames.left {names names' : List (Token × Bool)} (h : Renames φ d y (names ++ names')) :
    Renames φ d y names := fun q hq => h q (List.mem_append_left _ hq)

theorem Renames.right {names names' : List (Token × Bool)} (h : Renames φ d y (names ++ names')) :
    Renames φ d y names' := fun q hq => h q (List.mem_append_right _ hq)

/-- The scopes have no `y`, and the renamed scope is one of them. -/
structure Scopes.Ready (y : String) (out : Option Nat) (σ : Scopes) : Prop where
  lacks : σ.Lacks y
  within : ∀ k, out = some k → k < σ.length

/-- At the top level there are no scopes. -/
theorem Scopes.ready_nil (y : String) : Scopes.Ready y none [] where
  lacks _ hm := by cases hm
  within _ ho := by cases ho

variable (H : Retitles K φ d y) (hσ : σ.Ready y out)
include H hσ

/-- A reference under its new name is bound to the same scope. -/
theorem Reference.alike_bind {ref : Reference} (hn : ref.name ≠ y)
    (hφ : (φ ref.token).lexeme = renamedTo d y ref.name (σ.leadsTo d out ref.name)) :
    (ref.bind σ).Alike K (titles (Equiv.swap d.lexeme y) out σ.length)
      ((ref.relabel φ).bind (σ.retitle (Equiv.swap d.lexeme y) out)) := by
  obtain ⟨h1, h2, h3⟩ := Scopes.hops?_retitle (d := d) hn out hσ.lacks
  refine ⟨H.level ref.token, ?_, fun h => ?_, fun k hk => ?_⟩
  · change (σ.retitle _ out).hops? (φ ref.token).lexeme = σ.hops? ref.name
    rw [hφ, h1]
  · exact hφ.trans (h2 h)
  · obtain ⟨ν, hν, he⟩ := h3 k hk
    exact ⟨ν, hν, hφ.trans he⟩

omit H in
theorem Reference.premature_relabel {ref : Reference} (hn : ref.name ≠ y)
    (hφ : (φ ref.token).lexeme = renamedTo d y ref.name (σ.leadsTo d out ref.name))
    (h : ref.premature σ = []) :
    (ref.relabel φ).premature (σ.retitle (Equiv.swap d.lexeme y) out) = [] := by
  have hhere := Scopes.here?_retitle (d := d) hn out hσ.lacks
  unfold Reference.premature at h ⊢
  rw [show (ref.relabel φ).name = _ from hφ, hhere]
  split
  · rename_i hf
    rw [if_pos hf] at h
    cases h
  · rfl

omit hσ in
/-- The words that only classes bind are not renamed. -/
theorem renamedTo_word {n : String} (hw : Heap.isWord n) :
    renamedTo d y n (σ.leadsTo d out n) = n := by
  have hne : (n == d.lexeme) = false := by
    rw [beq_eq_false_iff_ne]
    exact fun he => H.notWord (he ▸ hw)
  simp [renamedTo, Scopes.leadsTo, hne]

theorem Reference.alike_bind_word {ref : Reference} (hw : Heap.isWord ref.name)
    (hφ : (φ ref.token).lexeme = renamedTo d y ref.token.lexeme false) :
    (ref.bind σ).Alike K (titles (Equiv.swap d.lexeme y) out σ.length)
      ((ref.relabel φ).bind (σ.retitle (Equiv.swap d.lexeme y) out)) := by
  refine Reference.alike_bind H hσ (fun he => H.freshWord (he ▸ hw)) ?_
  rw [renamedTo_word H hw]
  exact hφ

omit H hσ

mutual

/-- An expression under its new names, bound, is alike, and breaks no rule. -/
theorem Expr.rebind (H : Retitles K φ d y) (hσ : σ.Ready y out) {c : ClassContext} :
    ∀ e : Expr, e.Formed → e.violations c σ = [] →
    Renames φ d y ((e.bind σ).names d out) →
    (e.bind σ).Alike K (titles (Equiv.swap d.lexeme y) out σ.length)
        ((e.relabel φ).bind (σ.retitle (Equiv.swap d.lexeme y) out)) ∧
      (e.relabel φ).violations c (σ.retitle (Equiv.swap d.lexeme y) out) = []
  | .literal _, _, _, _ => ⟨.literal, rfl⟩
  | .group inner, hf, hv, hr => by
    obtain ⟨ha, hv'⟩ := Expr.rebind H hσ inner hf hv hr
    exact ⟨.group ha, hv'⟩
  | .unary _ token right, hf, hv, hr => by
    obtain ⟨ha, hv'⟩ := Expr.rebind H hσ right hf hv hr
    exact ⟨.unary (H.level token) ha, hv'⟩
  | .binary _ token left right, hf, hv, hr => by
    obtain ⟨hvl, hvr⟩ := List.append_eq_nil_iff.1 hv
    obtain ⟨ha, hv₁⟩ := Expr.rebind H hσ left hf.1 hvl hr.left
    obtain ⟨hb, hv₂⟩ := Expr.rebind H hσ right hf.2 hvr hr.right
    exact ⟨.binary (H.level token) ha hb, List.append_eq_nil_iff.2 ⟨hv₁, hv₂⟩⟩
  | .logical _ token left right, hf, hv, hr => by
    obtain ⟨hvl, hvr⟩ := List.append_eq_nil_iff.1 hv
    obtain ⟨ha, hv₁⟩ := Expr.rebind H hσ left hf.1 hvl hr.left
    obtain ⟨hb, hv₂⟩ := Expr.rebind H hσ right hf.2 hvr hr.right
    exact ⟨.logical ha hb, List.append_eq_nil_iff.2 ⟨hv₁, hv₂⟩⟩
  | .name ref, _, hv, hr => by
    obtain ⟨hn, hφ⟩ := hr.head
    exact ⟨.name (Reference.alike_bind H hσ hn hφ), Reference.premature_relabel hσ hn hφ hv⟩
  | .assign ref value, hf, hv, hr => by
    obtain ⟨hn, hφ⟩ := hr.head
    obtain ⟨ha, hv'⟩ := Expr.rebind H hσ value hf.2 hv hr.tail
    exact ⟨.assign (Reference.alike_bind H hσ hn hφ) ha, hv'⟩
  | .call callee paren args, hf, hv, hr => by
    obtain ⟨hvl, hvr⟩ := List.append_eq_nil_iff.1 hv
    obtain ⟨ha, hv₁⟩ := Expr.rebind H hσ callee hf.1 hvl hr.left
    obtain ⟨hb, hv₂⟩ := Expr.rebindAll H hσ args hf.2 hvr hr.right
    exact ⟨.call (H.level paren) ha hb, List.append_eq_nil_iff.2 ⟨hv₁, hv₂⟩⟩
  | .get object property, hf, hv, hr => by
    obtain ⟨ha, hv'⟩ := Expr.rebind H hσ object hf hv hr.tail
    exact ⟨.get (H.level property) hr.head.2 ha, hv'⟩
  | .set object property value, hf, hv, hr => by
    obtain ⟨hvr, hvl⟩ := List.append_eq_nil_iff.1 hv
    obtain ⟨ha, hv₁⟩ := Expr.rebind H hσ object hf.1 hvl hr.tail.left
    obtain ⟨hb, hv₂⟩ := Expr.rebind H hσ value hf.2 hvr hr.tail.right
    exact ⟨.set (H.level property) hr.head.2 ha hb, List.append_eq_nil_iff.2 ⟨hv₂, hv₁⟩⟩
  | .thisRef ref, hf, hv, hr => by
    refine ⟨.thisRef (Reference.alike_bind_word H hσ (.inl hf) hr.head.2), ?_⟩
    cases c with
    | outside => cases hv
    | plain | derived => rfl
  | .superRef ref method, hf, hv, hr => by
    refine ⟨.superRef (Reference.alike_bind_word H hσ (.inr hf) hr.head.2) (H.level method)
      hr.tail.head.2, ?_⟩
    cases c with
    | outside | plain => cases hv
    | derived => rfl

theorem Expr.rebindAll (H : Retitles K φ d y) (hσ : σ.Ready y out) {c : ClassContext} :
    ∀ es : List Expr, Expr.FormedAll es →
    Expr.violationsAll c σ es = [] → Renames φ d y (Expr.namesAll d out (Expr.bindAll σ es)) →
    Expr.AlikeAll K (titles (Equiv.swap d.lexeme y) out σ.length) (Expr.bindAll σ es)
        (Expr.bindAll (σ.retitle (Equiv.swap d.lexeme y) out) (Expr.relabelAll φ es)) ∧
      Expr.violationsAll c (σ.retitle (Equiv.swap d.lexeme y) out) (Expr.relabelAll φ es) = []
  | [], _, _, _ => ⟨.nil, rfl⟩
  | e :: es, hf, hv, hr => by
    obtain ⟨hvl, hvr⟩ := List.append_eq_nil_iff.1 hv
    obtain ⟨ha, hv₁⟩ := Expr.rebind H hσ e hf.1 hvl hr.left
    obtain ⟨hb, hv₂⟩ := Expr.rebindAll H hσ es hf.2 hvr hr.right
    exact ⟨.cons ha hb, List.append_eq_nil_iff.2 ⟨hv₁, hv₂⟩⟩

end

/-! ## Declarations -/

theorem Scopes.length_declare (σ : Scopes) (n : Token) (r : Bool) :
    (σ.declare n r).length = σ.length := by
  cases σ <;> rfl

theorem Scopes.Ready.declare (hσ : σ.Ready y out) {n : Token} (hn : n.lexeme ≠ y) (r : Bool) :
    (σ.declare n r).Ready y out := by
  refine ⟨?_, fun k hk => by rw [Scopes.length_declare]; exact hσ.within k hk⟩
  cases σ with
  | nil => exact hσ.lacks
  | cons scope outer =>
    intro s hs
    rcases List.mem_cons.1 hs with rfl | hs
    · have hb : (y == n.lexeme) = false := by
        rw [beq_eq_false_iff_ne]
        exact hn.symm
      rw [List.lookup_cons, hb]
      exact hσ.lacks scope List.mem_cons_self
    · exact hσ.lacks s (List.mem_cons_of_mem _ hs)

theorem Scopes.declare_retitle {μ : Renaming} {n : Token}
    (h : (φ n).lexeme = title μ out n.lexeme) (r : Bool) :
    (σ.retitle μ out).declare (φ n) r = (σ.declare n r).retitle μ out := by
  cases σ with
  | nil => rfl
  | cons scope outer =>
    simp only [Scopes.retitle, Scopes.declare, h]
    rfl

theorem Scopes.redeclared_retitle {μ : Renaming} {n : Token}
    (h : (φ n).lexeme = title μ out n.lexeme) (hr : σ.redeclared n = []) :
    (σ.retitle μ out).redeclared (φ n) = [] := by
  have hhere : (σ.retitle μ out).here? (φ n).lexeme = σ.here? n.lexeme := by
    cases σ with
    | nil => rfl
    | cons scope outer =>
      rw [h]
      exact Table.lookup_rename (title μ out) scope n.lexeme
  unfold Scopes.redeclared at hr ⊢
  rw [hhere]
  split
  · rename_i hs
    rw [if_pos hs] at hr
    cases hr
  · rfl

/-- A declared name is renamed with its scope, if no other name of the scope is spelled like `d`. -/
theorem title_of_declares {n : Token} (hn : n.lexeme ≠ y)
    (hφ : (φ n).lexeme = renamedTo d y n.lexeme (d.declares out n))
    (hsole : out = some 0 → n.lexeme = d.lexeme → n = d) :
    (φ n).lexeme = title (Equiv.swap d.lexeme y) out n.lexeme := by
  rw [hφ]
  unfold renamedTo title Token.declares
  by_cases ho : out = some 0
  · by_cases hd : n = d
    · simp [ho, hd]
    · have hx : n.lexeme ≠ d.lexeme := fun h => hd (hsole ho h)
      simp [ho, hd, swap_of_ne hx hn]
  · simp [ho]

/-- A name that is not spelled like `d` is not renamed. -/
theorem title_of_ne_name {n : String} (hn : n ≠ y) (hsole : out = some 0 → n ≠ d.lexeme) :
    title (Equiv.swap d.lexeme y) out n = n := by
  unfold title
  split
  · rename_i ho
    exact swap_of_ne (hsole ho) hn
  · rfl

theorem Scopes.here?_declare_self {n : Token} (hσ : σ ≠ []) (r : Bool) :
    ((σ.declare n r).here? n.lexeme).isSome = true := by
  cases σ with
  | nil => exact absurd rfl hσ
  | cons scope outer => simp [Scopes.declare, Scopes.here?]

theorem Scopes.here?_declare_of_here? {n : Token} {x : String} (r : Bool)
    (h : (σ.here? x).isSome = true) : ((σ.declare n r).here? x).isSome = true := by
  cases σ with
  | nil => exact h
  | cons scope outer =>
    simp only [Scopes.declare, Scopes.here?, List.head?_cons, Option.bind_some, List.lookup_cons]
    split
    · rfl
    · exact h

/-- A statement that breaks no rule declares no name twice. -/
theorem Stmt.here?_of_violations {f : FunctionContext} {c : ClassContext} {st : Stmt} {n : Token}
    (hn : st.name? = some n) (hv : st.violations f c σ = []) : (σ.here? n.lexeme).isSome = false := by
  have hr : σ.redeclared n = [] := by
    cases st with
    | var name init =>
      cases hn
      exact (List.append_eq_nil_iff.1 hv).1
    | function decl =>
      cases hn
      exact (List.append_eq_nil_iff.1 hv).1
    | classDecl name superclass methods =>
      cases hn
      exact (List.append_eq_nil_iff.1 (List.append_eq_nil_iff.1 hv).1).1
    | _ => cases hn
  unfold Scopes.redeclared at hr
  split at hr
  · cases hr
  · rename_i h
    simpa using h

theorem Stmt.name?_of_declared? {st : Stmt} {n : Token} (h : st.declared? = some n) :
    st.name? = some n := by
  cases st <;> first | exact h | cases h

theorem Stmt.mem_variables_cons {st : Stmt} {ss : List Stmt} :
    d ∈ Stmt.variables (st :: ss) ↔ st.declared? = some d ∨ d ∈ Stmt.variables ss := by
  cases h : st.declared? <;> simp [Stmt.variables, h, eq_comm]

/-- A variable is not declared in a scope that has its name. -/
theorem Stmt.not_mem_variables {f : FunctionContext} {c : ClassContext} :
    ∀ {ss : List Stmt} {σ : Scopes}, (σ.here? d.lexeme).isSome = true →
      Stmt.violationsAll f c σ ss = [] → d ∉ Stmt.variables ss
  | [], _, _, _ => by simp [Stmt.variables]
  | st :: ss, σ, hh, hv => by
    obtain ⟨hv, hvs⟩ := List.append_eq_nil_iff.1 hv
    rw [Stmt.mem_variables_cons]
    rintro (hd | hd)
    · have hno := Stmt.here?_of_violations (Stmt.name?_of_declared? hd) hv
      rw [hh] at hno
      cases hno
    · have hh' : ((st.declare σ).here? d.lexeme).isSome = true := by
        rw [Stmt.declare_eq]
        cases st.name? with
        | none => exact hh
        | some n => exact Scopes.here?_declare_of_here? true hh
      exact Stmt.not_mem_variables hh' hvs hd

/-- If the statement declares a name spelled like `d` in the scope of `d`, it declares `d`. -/
def Stmt.Sole (d : Token) (out : Option Nat) (st : Stmt) : Prop :=
  out = some 0 → ∀ n, st.name? = some n → n.lexeme = d.lexeme → st.declared? = some d

/-- The scope of `d` has declared it, or will. -/
def Owns (d : Token) (out : Option Nat) (σ : Scopes) (ss : List Stmt) : Prop :=
  out = some 0 → (σ.here? d.lexeme).isSome = true ∨ d ∈ Stmt.variables ss

/-- In the scope of `d` nothing else is declared under its name, neither before nor after. -/
theorem Owns.cons {f : FunctionContext} {c : ClassContext} {st : Stmt} {ss : List Stmt}
    (hσ : σ.Ready y out) (ho : Owns d out σ (st :: ss))
    (hv : Stmt.violationsAll f c σ (st :: ss) = []) :
    st.Sole d out ∧ Owns d out (st.declare σ) ss := by
  obtain ⟨hv, hvs⟩ := List.append_eq_nil_iff.1 hv
  have hne : out = some 0 → σ ≠ [] := by
    rintro h rfl
    exact absurd (hσ.within 0 h) (Nat.lt_irrefl 0)
  have hdeclare : ∀ n, out = some 0 → st.name? = some n →
      ((st.declare σ).here? n.lexeme).isSome = true := by
    intro n h0 hn
    rw [Stmt.declare_eq, hn]
    exact Scopes.here?_declare_self (hne h0) true
  refine ⟨fun h0 n hn hx => ?_, fun h0 => ?_⟩
  · rcases ho h0 with hh | hm
    · have hno := Stmt.here?_of_violations hn hv
      rw [hx, hh] at hno
      cases hno
    · rcases Stmt.mem_variables_cons.1 hm with hd | hm
      · exact hd
      · have hh := hdeclare n h0 hn
        rw [hx] at hh
        exact absurd hm (Stmt.not_mem_variables hh hvs)
  · rcases ho h0 with hh | hm
    · left
      rw [Stmt.declare_eq]
      cases st.name? with
      | none => exact hh
      | some n => exact Scopes.here?_declare_of_here? true hh
    · rcases Stmt.mem_variables_cons.1 hm with hd | hm
      · exact .inl (hdeclare d h0 (Stmt.name?_of_declared? hd))
      · exact .inr hm

/-! ## New scopes -/

theorem inward_eq_zero {vars : List Token} (h : inward d vars out = some 0) : d ∈ vars := by
  cases out with
  | some k => cases h
  | none =>
    unfold inward at h
    by_contra hd
    simp [hd] at h

theorem Scopes.Ready.push (hσ : σ.Ready y out) (vars : List Token) {scope : Scope}
    (hs : scope.lookup y = none) : Scopes.Ready y (inward d vars out) (scope :: σ) := by
  refine ⟨fun s hm => ?_, fun k hk => ?_⟩
  · rcases List.mem_cons.1 hm with rfl | hm
    · exact hs
    · exact hσ.lacks s hm
  · cases out with
    | some j =>
      cases hk
      exact Nat.succ_lt_succ (hσ.within j rfl)
    | none =>
      by_cases hd : d ∈ vars
      · simp only [inward, if_pos hd, Option.some.injEq] at hk
        subst hk
        exact Nat.succ_pos _
      · simp [inward, hd] at hk

theorem titles_inward (μ : Renaming) (vars : List Token) (n : Nat) :
    titles μ (inward d vars out) (n + 1) =
      title μ (inward d vars out) :: titles μ out n := by
  rw [titles, outward_inward]

theorem Scopes.retitle_inward (μ : Renaming) (vars : List Token) (scope : Scope) :
    Scopes.retitle μ (inward d vars out) (scope :: σ) =
      Table.rename (title μ (inward d vars out)) scope :: σ.retitle μ out := by
  rw [Scopes.retitle, outward_inward]

/-- The scope of a class word is never the scope of a variable. -/
theorem title_inward_nil (μ : Renaming) : title μ (inward d [] out) = .refl String := by
  refine title_of_ne μ fun h => ?_
  cases inward_eq_zero h

theorem Scopes.lookup_word_fresh {w : String} (hw : Heap.isWord w) (hy : ¬ Heap.isWord y) :
    ([(w, true)] : Scope).lookup y = none :=
  Scopes.lookup_word_of_ne fun he => hy (he ▸ hw)

/-- Where the scope of `d` is, seen from the methods of a class. -/
def towardsMethods (d : Token) (derived : Bool) (out : Option Nat) : Option Nat :=
  inward d [] (if derived then inward d [] out else out)

theorem Scopes.Ready.withClass (hσ : σ.Ready y out) (hy : ¬ Heap.isWord y) (derived : Bool) :
    (σ.withClass derived).Ready y (towardsMethods d derived out) := by
  have hthis := Scopes.lookup_word_fresh (w := "this") (.inl rfl) hy
  have hsuper := Scopes.lookup_word_fresh (w := "super") (.inr rfl) hy
  cases derived with
  | false => exact hσ.push [] hthis
  | true => exact (hσ.push [] hsuper).push [] hthis

theorem Scopes.withClass_retitle (μ : Renaming) (derived : Bool) :
    (σ.retitle μ out).withClass derived =
      (σ.withClass derived).retitle μ (towardsMethods d derived out) := by
  cases derived with
  | false =>
    simp only [Scopes.withClass, towardsMethods, Bool.false_eq_true, if_false, Scopes.retitle_inward,
      title_inward_nil]
    rfl
  | true =>
    simp only [Scopes.withClass, towardsMethods, if_true, Scopes.retitle_inward, title_inward_nil]
    rfl

theorem titles_withClass (μ : Renaming) (derived : Bool) :
    titles μ (towardsMethods d derived out) (σ.withClass derived).length =
      aroundMethods derived (titles μ out σ.length) := by
  cases derived with
  | false =>
    simp only [Scopes.withClass, towardsMethods, Bool.false_eq_true, if_false, List.length_cons,
      titles_inward, title_inward_nil, aroundMethods]
  | true =>
    simp only [Scopes.withClass, towardsMethods, if_true, List.length_cons, titles_inward,
      title_inward_nil, aroundMethods]

/-! ## Parameters -/

theorem Scopes.length_foldl_declare : ∀ (params : List Token) (τ : Scopes),
    (params.foldl (fun scopes p => scopes.declare p true) τ).length = τ.length
  | [], _ => rfl
  | p :: params, τ => by
    rw [List.foldl_cons, Scopes.length_foldl_declare params, Scopes.length_declare]

theorem Scopes.Ready.params : ∀ {params : List Token} {τ : Scopes}, τ.Ready y out →
    (∀ p ∈ params, p.lexeme ≠ y) →
    (params.foldl (fun scopes p => scopes.declare p true) τ).Ready y out
  | [], _, hτ, _ => hτ
  | p :: params, τ, hτ, hp => by
    rw [List.foldl_cons]
    exact Scopes.Ready.params (hτ.declare (hp p List.mem_cons_self) true)
      fun q hq => hp q (List.mem_cons_of_mem _ hq)

theorem Scopes.params_retitle {μ : Renaming} : ∀ {params : List Token} {τ : Scopes},
    (∀ p ∈ params, (φ p).lexeme = title μ out p.lexeme) →
    (params.map φ).foldl (fun scopes p => scopes.declare p true) (τ.retitle μ out) =
      (params.foldl (fun scopes p => scopes.declare p true) τ).retitle μ out
  | [], _, _ => rfl
  | p :: params, τ, hp => by
    rw [List.map_cons, List.foldl_cons, List.foldl_cons,
      Scopes.declare_retitle (hp p List.mem_cons_self) true]
    exact Scopes.params_retitle fun q hq => hp q (List.mem_cons_of_mem _ hq)

theorem Scopes.paramRule_retitle {μ : Renaming} : ∀ {params : List Token} {τ : Scopes},
    (∀ p ∈ params, (φ p).lexeme = title μ out p.lexeme) → τ.paramRule params = [] →
    (τ.retitle μ out).paramRule (params.map φ) = []
  | [], _, _, _ => rfl
  | p :: params, τ, hp, hv => by
    obtain ⟨hv, hvs⟩ := List.append_eq_nil_iff.1 hv
    have hd := hp p List.mem_cons_self
    refine List.append_eq_nil_iff.2 ⟨Scopes.redeclared_retitle hd hv, ?_⟩
    rw [Scopes.declare_retitle hd true]
    exact Scopes.paramRule_retitle (fun q hq => hp q (List.mem_cons_of_mem _ hq)) hvs

theorem Scopes.here?_params_of_here? {x : String} : ∀ {params : List Token} {τ : Scopes},
    (τ.here? x).isSome = true →
    ((params.foldl (fun scopes p => scopes.declare p true) τ).here? x).isSome = true
  | [], _, h => h
  | p :: params, τ, h => by
    rw [List.foldl_cons]
    exact Scopes.here?_params_of_here? (Scopes.here?_declare_of_here? true h)

theorem Scopes.here?_params : ∀ {params : List Token} {τ : Scopes}, τ ≠ [] → ∀ p ∈ params,
    ((params.foldl (fun scopes p => scopes.declare p true) τ).here? p.lexeme).isSome = true
  | q :: params, τ, hτ, p, hp => by
    have hτ' : τ.declare q true ≠ [] := by
      cases τ with
      | nil => exact absurd rfl hτ
      | cons scope outer => simp [Scopes.declare]
    rw [List.foldl_cons]
    rcases List.mem_cons.1 hp with rfl | hp
    · exact Scopes.here?_params_of_here? (Scopes.here?_declare_self hτ true)
    · exact Scopes.here?_params hτ' p hp

/-- Two parameters of the same name are the same parameter. -/
theorem Scopes.eq_of_paramRule : ∀ {params : List Token} {τ : Scopes}, τ ≠ [] →
    τ.paramRule params = [] → ∀ p ∈ params, ∀ q ∈ params, p.lexeme = q.lexeme → p = q := by
  have absent : ∀ {params : List Token} {τ : Scopes} {x : String}, (τ.here? x).isSome = true →
      τ.paramRule params = [] → ∀ p ∈ params, p.lexeme ≠ x := by
    intro params
    induction params with
    | nil => exact fun _ _ p hp => by cases hp
    | cons q params ih =>
      intro τ x hx hv p hp he
      obtain ⟨hv, hvs⟩ := List.append_eq_nil_iff.1 hv
      rcases List.mem_cons.1 hp with rfl | hp
      · rw [Scopes.redeclared, he, if_pos hx] at hv
        cases hv
      · exact ih (Scopes.here?_declare_of_here? true hx) hvs p hp he
  intro params
  induction params with
  | nil => exact fun _ _ p hp => by cases hp
  | cons r params ih =>
    intro τ hτ hv p hp q hq he
    obtain ⟨-, hvs⟩ := List.append_eq_nil_iff.1 hv
    have hτ' : τ.declare r true ≠ [] := by
      cases τ with
      | nil => exact absurd rfl hτ
      | cons scope outer => simp [Scopes.declare]
    have hr := Scopes.here?_declare_self (n := r) hτ true
    rcases List.mem_cons.1 hp with rfl | hp'
    · rcases List.mem_cons.1 hq with rfl | hq'
      · rfl
      · exact absurd he.symm (absent hr hvs q hq')
    · rcases List.mem_cons.1 hq with rfl | hq'
      · exact absurd he (absent hr hvs p hp')
      · exact ih hτ' hvs p hp' q hq' he

theorem Stmt.variables_bindAll : ∀ (ss : List Stmt) (σ : Scopes),
    Stmt.variables (Stmt.bindAll σ ss) = Stmt.variables ss
  | [], _ => rfl
  | st :: ss, σ => by
    have hst : (st.bind σ).declared? = st.declared? := by cases st <;> rfl
    simp only [Stmt.variables, Stmt.bindAll, List.filterMap_cons, hst]
    rw [← Stmt.variables, ← Stmt.variables, Stmt.variables_bindAll ss]

/-! ## Statements -/

theorem Stmt.sole_of_not_isDeclaration {st : Stmt} (h : st.isDeclaration = false) :
    st.Sole d out := by
  intro _ n hn
  cases st with
  | var | function | classDecl => cases h
  | _ => cases hn

/-- A name that a statement declares is renamed with its scope. -/
theorem Stmt.title_name? {st : Stmt} (hs : st.Sole d out)
    (hr : Renames φ d y ((st.bind σ).names d out)) {n : Token} (hn : st.name? = some n) :
    n.lexeme ≠ y ∧ (φ n).lexeme = title (Equiv.swap d.lexeme y) out n.lexeme := by
  -- a function or a class is not the variable, so its name is not spelled like it
  have kept : st.declared? = none → n.lexeme ≠ y → (φ n).lexeme = n.lexeme →
      (φ n).lexeme = title (Equiv.swap d.lexeme y) out n.lexeme := by
    intro hv hy hφ
    have hne : out = some 0 → n.lexeme ≠ d.lexeme := by
      intro h0 hx
      have hvar := hs h0 n hn hx
      rw [hv] at hvar
      cases hvar
    rw [hφ, title_of_ne_name hy hne]
  cases st with
  | var name init =>
    cases hn
    obtain ⟨hy, hφ⟩ := hr.head
    exact ⟨hy, title_of_declares hy hφ fun h0 hx => Option.some.inj (hs h0 n rfl hx)⟩
  | function decl =>
    obtain ⟨name, params, body⟩ := decl
    cases hn
    obtain ⟨hy, hφ⟩ := hr.head
    exact ⟨hy, kept rfl hy hφ⟩
  | classDecl name superclass methods =>
    cases hn
    obtain ⟨hy, hφ⟩ := hr.head
    exact ⟨hy, kept rfl hy hφ⟩
  | _ => cases hn

/-- The scopes after a statement under its new names. -/
theorem Stmt.declare_rebind (hσ : σ.Ready y out) {st : Stmt} (hs : st.Sole d out)
    (hr : Renames φ d y ((st.bind σ).names d out)) :
    (st.relabel φ).declare (σ.retitle (Equiv.swap d.lexeme y) out) =
        (st.declare σ).retitle (Equiv.swap d.lexeme y) out ∧
      (st.declare σ).Ready y out ∧ (st.declare σ).length = σ.length := by
  have hname : (st.relabel φ).name? = st.name?.map φ := by
    cases st with
    | function decl => obtain ⟨name, params, body⟩ := decl; rfl
    | _ => rfl
  rw [Stmt.declare_eq, Stmt.declare_eq, hname]
  cases hn : st.name? with
  | none => exact ⟨rfl, hσ, rfl⟩
  | some n =>
    obtain ⟨hy, hφ⟩ := Stmt.title_name? hs hr hn
    exact ⟨Scopes.declare_retitle hφ true, hσ.declare hy true, Scopes.length_declare ..⟩

/-- The parameters of a function are renamed with its scope. -/
theorem title_params {f : FunctionContext} {c : ClassContext} {params : List Token}
    {body : List Stmt} (hp : Scopes.paramRule ([] :: σ) params = [])
    (hv : Stmt.violationsAll f c (σ.withParams params) body = [])
    (hr : Renames φ d y (params.map fun p =>
      (p, d.declares (inward d (params ++ Stmt.variables body) out) p))) :
    ∀ p ∈ params, p.lexeme ≠ y ∧ (φ p).lexeme =
      title (Equiv.swap d.lexeme y) (inward d (params ++ Stmt.variables body) out) p.lexeme := by
  intro p hm
  obtain ⟨hy, hφ⟩ := hr _ (List.mem_map.2 ⟨p, hm, rfl⟩)
  refine ⟨hy, title_of_declares hy hφ fun h0 hx => ?_⟩
  rcases List.mem_append.1 (inward_eq_zero h0) with hd | hd
  · exact Scopes.eq_of_paramRule (by simp) hp p hm d hd hx
  · have hh := Scopes.here?_params (τ := [] :: σ) (by simp) p hm
    rw [hx] at hh
    exact absurd hd (Stmt.not_mem_variables hh hv)

theorem owns_params {params : List Token} {body : List Stmt} :
    Owns d (inward d (params ++ Stmt.variables body) out) (σ.withParams params) body := by
  intro h0
  rcases List.mem_append.1 (inward_eq_zero h0) with hd | hd
  · exact .inl (Scopes.here?_params (by simp) d hd)
  · exact .inr hd

/-- A class that does not inherit from itself does not under its new names. -/
theorem Reference.inheritanceRule_relabel {ref : Reference} {name : Token}
    (hname : (φ name).lexeme = name.lexeme) (hy : name.lexeme ≠ y)
    (hφ : (φ ref.token).lexeme = renamedTo d y ref.name (σ.leadsTo d out ref.name))
    (h : ref.inheritanceRule name = []) : (ref.relabel φ).inheritanceRule (φ name) = [] := by
  unfold Reference.inheritanceRule at h ⊢
  refine if_neg fun he => ?_
  have he : renamedTo d y ref.name (σ.leadsTo d out ref.name) = name.lexeme := by
    rw [← hφ, ← hname]
    exact he
  unfold renamedTo at he
  split at he
  · rename_i hb
    simp only [Scopes.leadsTo, Bool.and_eq_true, beq_iff_eq] at hb
    rw [hb.2, Equiv.swap_apply_left] at he
    exact hy he.symm
  · rw [if_pos he] at h
    cases h

mutual

/-- A statement under its new names, bound, is alike, and breaks no rule. -/
theorem Stmt.rebind (H : Retitles K φ d y) {σ : Scopes} {out : Option Nat} (hσ : σ.Ready y out)
    {f : FunctionContext} {c : ClassContext} :
    ∀ st : Stmt, st.Formed → st.violations f c σ = [] → st.Sole d out →
    Renames φ d y ((st.bind σ).names d out) →
    Stmt.Alike K (titles (Equiv.swap d.lexeme y) out σ.length) (st.bind σ)
        ((st.relabel φ).bind (σ.retitle (Equiv.swap d.lexeme y) out)) ∧
      (st.relabel φ).violations f c (σ.retitle (Equiv.swap d.lexeme y) out) = []
  | .expression e, hf, hv, _, hr => by
    obtain ⟨ha, hv'⟩ := Expr.rebind H hσ e hf hv hr
    exact ⟨.expression ha, hv'⟩
  | .print e, hf, hv, _, hr => by
    obtain ⟨ha, hv'⟩ := Expr.rebind H hσ e hf hv hr
    exact ⟨.print ha, hv'⟩
  | .var name init, hf, hv, hs, hr => by
    obtain ⟨hvn, hvi⟩ := List.append_eq_nil_iff.1 hv
    obtain ⟨hy, hφ⟩ := Stmt.title_name? hs hr rfl
    have hinner : (φ name).lexeme = innermost (titles (Equiv.swap d.lexeme y) out σ.length)
        name.lexeme := by rw [hφ, innermost_titles _ hσ.within]
    have hre := Scopes.redeclared_retitle hφ hvn
    cases init with
    | none => exact ⟨.var hinner .none, List.append_eq_nil_iff.2 ⟨hre, rfl⟩⟩
    | some e =>
      obtain ⟨ha, hv'⟩ := Expr.rebind H (hσ.declare hy false) e (hf.2 e rfl) hvi hr.tail
      rw [Scopes.length_declare, ← Scopes.declare_retitle hφ false] at ha
      rw [← Scopes.declare_retitle hφ false] at hv'
      exact ⟨.var hinner (.some ha), List.append_eq_nil_iff.2 ⟨hre, hv'⟩⟩
  | .block body, hf, hv, _, hr => by
    simp only [Stmt.bind, Stmt.names, Stmt.variables_bindAll] at hr
    obtain ⟨ha, hv'⟩ := Stmt.rebindAll H (hσ.push (Stmt.variables body) rfl) body hf hv
      (fun h0 => .inr (inward_eq_zero h0)) hr
    rw [List.length_cons, titles_inward, Scopes.retitle_inward] at ha
    rw [Scopes.retitle_inward] at hv'
    exact ⟨.block (fair_title H.fair _) ha, hv'⟩
  | .ifThen test yes, hf, hv, _, hr => by
    obtain ⟨hvt, hvy⟩ := List.append_eq_nil_iff.1 hv
    obtain ⟨ha, hv₁⟩ := Expr.rebind H hσ test hf.1 hvt hr.left
    obtain ⟨hb, hv₂⟩ := Stmt.rebind H hσ yes hf.2.1 hvy
      (Stmt.sole_of_not_isDeclaration hf.2.2) hr.right
    exact ⟨.ifThen ha hb, List.append_eq_nil_iff.2 ⟨hv₁, hv₂⟩⟩
  | .ifElse test yes no, hf, hv, _, hr => by
    obtain ⟨hv, hvn⟩ := List.append_eq_nil_iff.1 hv
    obtain ⟨hvt, hvy⟩ := List.append_eq_nil_iff.1 hv
    obtain ⟨ha, hv₁⟩ := Expr.rebind H hσ test hf.1 hvt hr.left
    obtain ⟨hb, hv₂⟩ := Stmt.rebind H hσ yes hf.2.1.1 hvy
      (Stmt.sole_of_not_isDeclaration hf.2.1.2) hr.right.left
    obtain ⟨hc, hv₃⟩ := Stmt.rebind H hσ no hf.2.2.1 hvn
      (Stmt.sole_of_not_isDeclaration hf.2.2.2) hr.right.right
    exact ⟨.ifElse ha hb hc, List.append_eq_nil_iff.2 ⟨List.append_eq_nil_iff.2 ⟨hv₁, hv₂⟩, hv₃⟩⟩
  | .loop test body, hf, hv, _, hr => by
    obtain ⟨hvt, hvb⟩ := List.append_eq_nil_iff.1 hv
    obtain ⟨ha, hv₁⟩ := Expr.rebind H hσ test hf.1 hvt hr.left
    obtain ⟨hb, hv₂⟩ := Stmt.rebind H hσ body hf.2.1 hvb
      (Stmt.sole_of_not_isDeclaration hf.2.2) hr.right
    exact ⟨.loop ha hb, List.append_eq_nil_iff.2 ⟨hv₁, hv₂⟩⟩
  | .function ⟨name, params, body⟩, hf, hv, hs, hr => by
    obtain ⟨hvn, hvd⟩ := List.append_eq_nil_iff.1 hv
    obtain ⟨hy, hφ⟩ := Stmt.title_name? hs hr rfl
    obtain ⟨ha, hv'⟩ := FunDecl.rebind H (hσ.declare hy true) ⟨name, params, body⟩ hf hvd hr
    rw [Scopes.length_declare, ← Scopes.declare_retitle hφ true] at ha
    rw [← Scopes.declare_retitle hφ true] at hv'
    refine ⟨.function ?_ ha, List.append_eq_nil_iff.2 ⟨Scopes.redeclared_retitle hφ hvn, hv'⟩⟩
    rw [innermost_titles _ hσ.within]
    exact hφ.symm.trans hr.head.2
  | .ret keyword value, hf, hv, _, hr => by
    obtain ⟨hvk, hvv⟩ := List.append_eq_nil_iff.1 hv
    have hrule : f.returnRule (φ keyword) value.isSome = [] := by
      cases f with
      | outside => cases hvk
      | plain => rfl
      | initializer =>
        cases value with
        | none => rfl
        | some e => cases hvk
    cases value with
    | none => exact ⟨.ret .none, List.append_eq_nil_iff.2 ⟨hrule, rfl⟩⟩
    | some e =>
      obtain ⟨ha, hv'⟩ := Expr.rebind H hσ e (hf e rfl) hvv hr
      exact ⟨.ret (.some ha), List.append_eq_nil_iff.2 ⟨hrule, hv'⟩⟩
  | .classDecl name superclass methods, hf, hv, hs, hr => by
    obtain ⟨hv, hvm⟩ := List.append_eq_nil_iff.1 hv
    obtain ⟨hvn, hvs⟩ := List.append_eq_nil_iff.1 hv
    obtain ⟨hy, hφ⟩ := Stmt.title_name? hs hr rfl
    have hσ₁ := hσ.declare hy true
    have hname : (φ name).lexeme = name.lexeme := hr.head.2
    have hdecl := Scopes.declare_retitle (σ := σ) hφ true
    have hmap : (superclass.map (·.bind (σ.declare name true))).isSome = superclass.isSome :=
      Option.isSome_map
    have hmap' : (superclass.map (·.relabel φ)).isSome = superclass.isSome := Option.isSome_map
    simp only [Stmt.bind, Stmt.names, hmap] at hr
    obtain ⟨hm, hv'⟩ := FunDecl.rebindAll H (hσ₁.withClass H.freshWord superclass.isSome) methods
      hf.2.2 hvm hr.tail.right
    rw [titles_withClass, Scopes.length_declare, ← Scopes.withClass_retitle, ← hdecl] at hm
    rw [← Scopes.withClass_retitle, ← hdecl] at hv'
    have hfix : innermost (titles (Equiv.swap d.lexeme y) out σ.length) name.lexeme =
        name.lexeme := by
      rw [innermost_titles _ hσ.within]
      exact hφ.symm.trans hname
    have hre := Scopes.redeclared_retitle hφ hvn
    cases superclass with
    | none =>
      exact ⟨.classDecl hfix hname .none hm,
        List.append_eq_nil_iff.2 ⟨List.append_eq_nil_iff.2 ⟨hre, rfl⟩, hv'⟩⟩
    | some ref =>
      obtain ⟨hrn, hrφ⟩ := hr.tail.left.head
      obtain ⟨hvi, hvp⟩ := List.append_eq_nil_iff.1 hvs
      have href := Reference.alike_bind H hσ₁ hrn hrφ
      have hprem := Reference.premature_relabel hσ₁ hrn hrφ hvp
      rw [Scopes.length_declare, ← hdecl] at href
      rw [← hdecl] at hprem
      have hinh := Reference.inheritanceRule_relabel hname hy hrφ hvi
      exact ⟨.classDecl hfix hname (.some href) hm, List.append_eq_nil_iff.2
        ⟨List.append_eq_nil_iff.2 ⟨hre, List.append_eq_nil_iff.2 ⟨hinh, hprem⟩⟩, hv'⟩⟩

theorem Stmt.rebindAll (H : Retitles K φ d y) {σ : Scopes} {out : Option Nat} (hσ : σ.Ready y out)
    {f : FunctionContext} {c : ClassContext} :
    ∀ ss : List Stmt, Stmt.FormedAll ss → Stmt.violationsAll f c σ ss = [] → Owns d out σ ss →
    Renames φ d y (Stmt.namesAll d out (Stmt.bindAll σ ss)) →
    Stmt.AlikeAll K (titles (Equiv.swap d.lexeme y) out σ.length) (Stmt.bindAll σ ss)
        (Stmt.bindAll (σ.retitle (Equiv.swap d.lexeme y) out) (Stmt.relabelAll φ ss)) ∧
      Stmt.violationsAll f c (σ.retitle (Equiv.swap d.lexeme y) out) (Stmt.relabelAll φ ss) = []
  | [], _, _, _, _ => ⟨.nil, rfl⟩
  | st :: ss, hf, hv, ho, hr => by
    obtain ⟨hs, ho'⟩ := ho.cons hσ hv
    obtain ⟨hvs, hvr⟩ := List.append_eq_nil_iff.1 hv
    obtain ⟨hd, hσ', hlen⟩ := Stmt.declare_rebind hσ hs hr.left
    obtain ⟨ha, hv₁⟩ := Stmt.rebind H hσ st hf.1 hvs hs hr.left
    obtain ⟨hb, hv₂⟩ := Stmt.rebindAll H hσ' ss hf.2 hvr ho' hr.right
    rw [hlen, ← hd] at hb
    rw [← hd] at hv₂
    exact ⟨.cons ha hb, List.append_eq_nil_iff.2 ⟨hv₁, hv₂⟩⟩

theorem FunDecl.rebind (H : Retitles K φ d y) {σ : Scopes} {out : Option Nat} (hσ : σ.Ready y out)
    {f : FunctionContext} {c : ClassContext} :
    ∀ g : FunDecl Stmt, FunDecl.Formed g → FunDecl.violations f c σ g = [] →
    Renames φ d y (FunDecl.names d out (FunDecl.bind σ g)) →
    Stmt.FunAlike K (titles (Equiv.swap d.lexeme y) out σ.length) (FunDecl.bind σ g)
        (FunDecl.bind (σ.retitle (Equiv.swap d.lexeme y) out) (FunDecl.relabel φ g)) ∧
      FunDecl.violations f c (σ.retitle (Equiv.swap d.lexeme y) out) (FunDecl.relabel φ g) = []
  | ⟨name, params, body⟩, hf, hv, hr => by
    obtain ⟨hvp, hvb⟩ := List.append_eq_nil_iff.1 hv
    simp only [FunDecl.bind, FunDecl.names, Stmt.variables_bindAll] at hr
    have hp := title_params hvp hvb hr.tail.left
    have hready : Scopes.Ready y (inward d (params ++ Stmt.variables body) out)
        (σ.withParams params) := (hσ.push _ rfl).params fun p hm => (hp p hm).1
    obtain ⟨hb, hv'⟩ := Stmt.rebindAll H hready body hf.2.2 hvb owns_params hr.tail.right
    rw [Scopes.withParams, Scopes.length_foldl_declare, List.length_cons, titles_inward] at hb
    rw [Scopes.withParams] at hv'
    rw [← Scopes.params_retitle fun p hm => (hp p hm).2, Scopes.retitle_inward] at hb hv'
    have hrule := Scopes.paramRule_retitle (fun p hm => (hp p hm).2) hvp
    rw [Scopes.retitle_inward] at hrule
    refine ⟨.mk hr.head.2 (fair_title H.fair _) ?_ hb, List.append_eq_nil_iff.2 ⟨hrule, hv'⟩⟩
    rw [List.map_map]
    exact List.map_congr_left fun p hm => (hp p hm).2

theorem FunDecl.rebindAll (H : Retitles K φ d y) {σ : Scopes} {out : Option Nat}
    (hσ : σ.Ready y out) {c : ClassContext} :
    ∀ gs : List (FunDecl Stmt), FunDecl.FormedAll gs → FunDecl.violationsAll c σ gs = [] →
    Renames φ d y (FunDecl.namesAll d out (FunDecl.bindAll σ gs)) →
    Stmt.FunAlikeAll K (titles (Equiv.swap d.lexeme y) out σ.length) (FunDecl.bindAll σ gs)
        (FunDecl.bindAll (σ.retitle (Equiv.swap d.lexeme y) out) (FunDecl.relabelAll φ gs)) ∧
      FunDecl.violationsAll c (σ.retitle (Equiv.swap d.lexeme y) out)
        (FunDecl.relabelAll φ gs) = []
  | [], _, _, _ => ⟨.nil, rfl⟩
  | g :: gs, hf, hv, hr => by
    obtain ⟨hvg, hvs⟩ := List.append_eq_nil_iff.1 hv
    obtain ⟨ha, hv₁⟩ := FunDecl.rebind H hσ g hf.1 hvg hr.left
    obtain ⟨hb, hv₂⟩ := FunDecl.rebindAll H hσ gs hf.2 hvs hr.right
    have hinit : (FunDecl.relabel φ g).isInitializer = g.isInitializer := by
      obtain ⟨name, params, body⟩ := g
      have hname : (φ name).lexeme = name.lexeme := hr.left.head.2
      simp only [FunDecl.isInitializer, FunDecl.relabel, hname]
    refine ⟨.cons ha hb, List.append_eq_nil_iff.2 ⟨?_, hv₂⟩⟩
    rw [hinit]
    exact hv₁

end

end

end Lox

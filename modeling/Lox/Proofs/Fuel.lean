import Lox.Eval
import Lox.Proofs.Exec

/-!
# Fuel

What evaluation comes to does not depend on its fuel, as long as there is enough of it: with more
fuel an action does the same, unless it has run out (`Exec.Extends`). So an action that takes fuel
comes to at most one result (`Exec.Comes`), and the results of a sequence are put together from
those of its parts.

Main statement: `Eval.extendsTasks`.
-/

namespace Lox

namespace Exec

/-- How an action can end. -/
abbrev Result (α : Type) := EStateM.Result Interrupt Machine α

namespace Result

variable {α : Type}

/-- The action has not run out of fuel. -/
def Settled : Result α → Prop
  | .error .outOfFuel _ => False
  | _ => True

/-- The result, back in a frame. -/
def back (frame : Id) : Result α → Result α
  | .ok a m => .ok a { m with frame }
  | .error i m => .error i { m with frame }

theorem settled_back {frame : Id} {r : Result α} : Settled (back frame r) ↔ Settled r := by
  cases r with
  | ok a m => exact Iff.rfl
  | error i m => cases i <;> exact Iff.rfl

theorem settled_error {β : Type} {i : Interrupt} {m m' : Machine}
    (h : Settled (.error i m : Result α)) : Settled (.error i m' : Result β) := by
  cases i <;> exact h

end Result

variable {α β : Type} {x x' : Exec α} {f f' : α → Exec β}

/-- Where `x` does not run out of fuel, `x'` does the same. -/
def Extends (x x' : Exec α) : Prop := ∀ m, Result.Settled (x m) → x' m = x m

theorem extends_refl (x : Exec α) : Extends x x := fun _ _ => rfl

theorem extends_outOfFuel : Extends (throw .outOfFuel) x := fun _ h => h.elim

theorem extends_bind (hx : Extends x x') (hf : ∀ a, Extends (f a) (f' a)) :
    Extends (x >>= f) (x' >>= f') := by
  intro m h
  cases hrun : x m with
  | ok a m₁ =>
    rw [bind_ok hrun] at h ⊢
    rw [bind_ok ((hx m (by rw [hrun]; trivial)).trans hrun), hf a m₁ h]
  | error i m₁ =>
    rw [bind_error hrun] at h ⊢
    have hs : Result.Settled (x m) := hrun ▸ Result.settled_error h
    exact bind_error ((hx m hs).trans hrun)

theorem extends_inFrame (frame : Id) (hx : Extends x x') :
    Extends (inFrame frame x) (inFrame frame x') := by
  intro m h
  have hs : Result.Settled (x { m with frame }) := by
    unfold inFrame at h
    cases hrun : x { m with frame } with
    | ok a m' => trivial
    | error i m' =>
      simp only [hrun] at h
      exact Result.settled_error h
  unfold inFrame
  rw [hx _ hs]

theorem extends_asCall (s : Setting) (call : Call) (hx : Extends x x') :
    Extends (asCall s call x) (asCall s call x') := by
  intro m h
  have hs : Result.Settled (x (m.enter s call)) := by
    unfold asCall at h
    cases hrun : x (m.enter s call) with
    | ok a m' => trivial
    | error i m' =>
      cases i with
      | outOfFuel =>
        simp only [Machine.enter] at hrun
        simp only [hrun] at h
        exact h
      | _ => trivial
  have hrun := hx _ hs
  simp only [Machine.enter] at hrun
  unfold asCall
  simp only [hrun]

theorem Extends.trans {x'' : Exec α} (h : Extends x x') (h' : Extends x' x'') : Extends x x'' := by
  intro m hs
  have he := h m hs
  rw [h' m (he ▸ hs), he]

/-! ## What actions come to -/

/-- More fuel changes nothing. -/
def Growing (x : Nat → Exec α) : Prop := ∀ n, Extends (x n) (x (n + 1))

/-- With enough fuel the action, begun in `m`, ends with `r`. -/
def Comes (x : Nat → Exec α) (m : Machine) (r : Result α) : Prop := r.Settled ∧ ∃ n, x n m = r

section
variable {x : Nat → Exec α} {f : α → Nat → Exec β} {m : Machine}

theorem Growing.extends (hx : Growing x) {n n' : Nat} (h : n ≤ n') : Extends (x n) (x n') := by
  induction h with
  | refl => exact extends_refl _
  | step _ ih => exact ih.trans (hx _)

/-- An action that has come to `r` comes to it with all fuel from there on. -/
theorem Comes.eventually (hx : Growing x) {r : Result α} (h : Comes x m r) :
    ∃ N, ∀ n, N ≤ n → x n m = r := by
  obtain ⟨hs, N, he⟩ := h
  exact ⟨N, fun n hn => (hx.extends hn m (he ▸ hs)).trans he⟩

theorem Comes.unique (hx : Growing x) {r r' : Result α} (h : Comes x m r) (h' : Comes x m r') :
    r = r' := by
  obtain ⟨N, hN⟩ := h.eventually hx
  obtain ⟨N', hN'⟩ := h'.eventually hx
  rw [← hN _ (Nat.le_max_left N N'), hN' _ (Nat.le_max_right N N')]

theorem comes_succ (hx : Growing x) {r : Result α} :
    Comes (fun n => x (n + 1)) m r ↔ Comes x m r := by
  constructor
  · rintro ⟨hs, n, he⟩
    exact ⟨hs, n + 1, he⟩
  · intro h
    obtain ⟨N, hN⟩ := h.eventually hx
    exact ⟨h.1, N, hN _ (Nat.le_succ N)⟩

theorem comes_const {y : Exec α} {r : Result α} (hs : Result.Settled (y m)) :
    Comes (fun _ => y) m r ↔ y m = r :=
  ⟨fun ⟨_, _, he⟩ => he, fun he => ⟨he ▸ hs, 0, he⟩⟩

/-- A sequence comes to what its second part comes to, or to the interrupt of its first. -/
theorem comes_bind (hx : Growing x) (hf : ∀ a, Growing (f a)) {r : Result β} :
    Comes (fun n => x n >>= fun a => f a n) m r ↔
      (∃ a m₁, Comes x m (.ok a m₁) ∧ Comes (f a) m₁ r) ∨
      ∃ i m₁, Comes x m (.error i m₁) ∧ r = .error i m₁ := by
  constructor
  · rintro ⟨hs, n, he⟩
    change (x n >>= fun a => f a n) m = r at he
    cases hrun : x n m with
    | ok a m₁ =>
      rw [bind_ok hrun] at he
      exact .inl ⟨a, m₁, ⟨trivial, n, hrun⟩, hs, n, he⟩
    | error i m₁ =>
      rw [bind_error hrun] at he
      subst he
      exact .inr ⟨i, m₁, ⟨Result.settled_error hs, n, hrun⟩, rfl⟩
  · rintro (⟨a, m₁, h, h'⟩ | ⟨i, m₁, h, rfl⟩)
    · obtain ⟨N, hN⟩ := h.eventually hx
      obtain ⟨N', hN'⟩ := h'.eventually (hf a)
      refine ⟨h'.1, max N N', ?_⟩
      change (x (max N N') >>= fun a => f a (max N N')) m = r
      rw [bind_ok (hN _ (Nat.le_max_left N N')), hN' _ (Nat.le_max_right N N')]
    · obtain ⟨hs, n, he⟩ := h
      exact ⟨Result.settled_error hs, n, bind_error he⟩

/-- What an action comes to in a frame. -/
theorem comes_inFrame {frame : Id} {r : Result α} :
    Comes (fun n => inFrame frame (x n)) m r ↔
      ∃ r', Comes x { m with frame } r' ∧ r = r'.back m.frame := by
  have hrun : ∀ n, inFrame frame (x n) m = Result.back m.frame (x n { m with frame }) := by
    intro n
    unfold inFrame
    cases x n { m with frame } <;> rfl
  simp only [Comes, hrun]
  constructor
  · rintro ⟨hs, n, rfl⟩
    exact ⟨_, ⟨Result.settled_back.1 hs, n, rfl⟩, rfl⟩
  · rintro ⟨_, ⟨hs, n, rfl⟩, rfl⟩
    exact ⟨Result.settled_back.2 hs, n, rfl⟩

end

end Exec

namespace Eval

open Exec

/-! ## More fuel -/

/-- How the tasks go with more fuel than `n`. -/
structure ExtendsTasks (s : Setting) (n : Nat) : Prop where
  evaluate : ∀ e, Extends (evaluate s n e) (evaluate s (n + 1) e)
  evaluateAll : ∀ es, Extends (evaluateAll s n es) (evaluateAll s (n + 1) es)
  apply : ∀ callee args, Extends (apply s n callee args) (apply s (n + 1) callee args)
  runFunction : ∀ f args, Extends (runFunction s n f args) (runFunction s (n + 1) f args)
  execute : ∀ stmt, Extends (execute s n stmt) (execute s (n + 1) stmt)
  executeAll : ∀ stmts, Extends (executeAll s n stmts) (executeAll s (n + 1) stmts)

namespace ExtendsTasks

variable {s : Setting} {n : Nat} (ih : ExtendsTasks s n)
include ih

theorem evaluate_succ (e : Expr) :
    Extends (Eval.evaluate s (n + 1) e) (Eval.evaluate s (n + 2) e) := by
  cases e with
  | literal | name | thisRef | superRef =>
    rw [Eval.evaluate, Eval.evaluate]
    exact extends_refl _
  | group inner =>
    rw [Eval.evaluate, Eval.evaluate]
    exact ih.evaluate inner
  | unary op token right =>
    rw [Eval.evaluate, Eval.evaluate]
    exact extends_bind (ih.evaluate right) fun v => extends_refl _
  | binary op token left right =>
    rw [Eval.evaluate, Eval.evaluate]
    refine extends_bind (ih.evaluate left) fun a => ?_
    exact extends_bind (ih.evaluate right) fun b => extends_refl _
  | logical op token left right =>
    rw [Eval.evaluate, Eval.evaluate]
    refine extends_bind (ih.evaluate left) fun a => ?_
    split
    · exact extends_refl _
    · exact ih.evaluate right
  | assign ref value =>
    rw [Eval.evaluate, Eval.evaluate]
    exact extends_bind (ih.evaluate value) fun v => extends_refl _
  | call callee paren args =>
    rw [Eval.evaluate, Eval.evaluate]
    refine extends_bind (ih.evaluate callee) fun f => ?_
    refine extends_bind (ih.evaluateAll args) fun vs => ?_
    refine extends_bind (extends_refl _) fun h => ?_
    split
    · exact extends_refl _
    split
    · exact extends_asCall s _ (ih.apply f vs)
    · exact extends_refl _
  | get object property =>
    rw [Eval.evaluate, Eval.evaluate]
    exact extends_bind (ih.evaluate object) fun o => extends_refl _
  | set object property value =>
    rw [Eval.evaluate, Eval.evaluate]
    refine extends_bind (ih.evaluate object) fun o => ?_
    split
    · exact extends_bind (ih.evaluate value) fun v => extends_refl _
    · exact extends_refl _

theorem evaluateAll_succ (es : List Expr) :
    Extends (Eval.evaluateAll s (n + 1) es) (Eval.evaluateAll s (n + 2) es) := by
  cases es with
  | nil => exact extends_refl _
  | cons e es =>
    rw [Eval.evaluateAll, Eval.evaluateAll]
    refine extends_bind (ih.evaluate e) fun v => ?_
    exact extends_bind (ih.evaluateAll es) fun vs => extends_refl _

theorem apply_succ (callee : Value) (args : List Value) :
    Extends (Eval.apply s (n + 1) callee args) (Eval.apply s (n + 2) callee args) := by
  cases callee with
  | function f =>
    rw [Eval.apply, Eval.apply]
    exact ih.runFunction f args
  | cls c =>
    rw [Eval.apply, Eval.apply]
    refine extends_bind (extends_refl _) fun o => ?_
    refine extends_bind (extends_refl _) fun h => ?_
    split
    · refine extends_bind (extends_refl _) fun f => ?_
      exact extends_bind (ih.runFunction f args) fun _ => extends_refl _
    · exact extends_refl _
  | _ => exact fun _ _ => rfl

theorem runFunction_succ (f : Id) (args : List Value) :
    Extends (Eval.runFunction s (n + 1) f args) (Eval.runFunction s (n + 2) f args) := by
  rw [Eval.runFunction, Eval.runFunction]
  refine extends_bind (extends_refl _) fun h => ?_
  split
  · exact extends_refl _
  · rename_i closure _
    refine extends_bind (extends_refl _) fun frame => ?_
    exact extends_bind (extends_inFrame frame (ih.executeAll closure.decl.body)) fun ending =>
      extends_refl _

theorem execute_succ (stmt : Stmt) :
    Extends (Eval.execute s (n + 1) stmt) (Eval.execute s (n + 2) stmt) := by
  cases stmt with
  | function | classDecl =>
    rw [Eval.execute, Eval.execute]
    exact extends_refl _
  | expression e | print e =>
    rw [Eval.execute, Eval.execute]
    exact extends_bind (ih.evaluate e) fun v => extends_refl _
  | var name init =>
    cases init with
    | none => exact fun _ _ => rfl
    | some e =>
      rw [Eval.execute, Eval.execute]
      exact extends_bind (ih.evaluate e) fun v => extends_refl _
  | block body =>
    rw [Eval.execute, Eval.execute]
    refine extends_bind (extends_refl _) fun m => ?_
    refine extends_bind (extends_refl _) fun frame => ?_
    exact extends_inFrame frame (ih.executeAll body)
  | ifThen test yes =>
    rw [Eval.execute, Eval.execute]
    refine extends_bind (ih.evaluate test) fun v => ?_
    split
    · exact ih.execute yes
    · exact extends_refl _
  | ifElse test yes no =>
    rw [Eval.execute, Eval.execute]
    refine extends_bind (ih.evaluate test) fun v => ?_
    split
    · exact ih.execute yes
    · exact ih.execute no
  | loop test body =>
    rw [Eval.execute, Eval.execute]
    refine extends_bind (ih.evaluate test) fun v => ?_
    split
    · refine extends_bind (ih.execute body) fun c => ?_
      cases c with
      | returned v => exact extends_refl _
      | completed => exact ih.execute (.loop test body)
    · exact extends_refl _
  | ret keyword value =>
    cases value with
    | none => exact fun _ _ => rfl
    | some e =>
      rw [Eval.execute, Eval.execute]
      exact extends_bind (ih.evaluate e) fun v => extends_refl _

theorem executeAll_succ (stmts : List Stmt) :
    Extends (Eval.executeAll s (n + 1) stmts) (Eval.executeAll s (n + 2) stmts) := by
  cases stmts with
  | nil => exact extends_refl _
  | cons stmt stmts =>
    rw [Eval.executeAll, Eval.executeAll]
    refine extends_bind (ih.execute stmt) fun c => ?_
    cases c with
    | returned v => exact extends_refl _
    | completed => exact ih.executeAll stmts

end ExtendsTasks

/-- **More fuel changes nothing** but where it has run out. -/
theorem extendsTasks (s : Setting) : ∀ n, ExtendsTasks s n
  | 0 => by constructor <;> intros <;> exact extends_outOfFuel
  | n + 1 =>
    have ih := extendsTasks s n
    { evaluate := ih.evaluate_succ
      evaluateAll := ih.evaluateAll_succ
      apply := ih.apply_succ
      runFunction := ih.runFunction_succ
      execute := ih.execute_succ
      executeAll := ih.executeAll_succ }

/-! ## Growing tasks -/

section
variable (s : Setting)

theorem growing_evaluate (e : Expr) : Growing (evaluate s · e) := fun n =>
  (extendsTasks s n).evaluate e

theorem growing_execute (stmt : Stmt) : Growing (execute s · stmt) := fun n =>
  (extendsTasks s n).execute stmt

theorem growing_executeAll (stmts : List Stmt) : Growing (executeAll s · stmts) := fun n =>
  (extendsTasks s n).executeAll stmts

end

end Eval

end Lox

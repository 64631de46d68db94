import Lox.Proofs.Restoration
import Lox.Proofs.Trace

/-!
# Returns

The statements that a statement executes in its own call, in the order in which they begin
(`Task.statements`): not those of the functions that are called on the way. If it ends in a return,
the last of them is a return statement, the only one, and nothing has happened since its value
was evaluated (`Returned`). That statement stands in the text of the first (`Stmt.ownReturns`), so
at the top level of an accepted program there is none.

Main statement: `return_ends_its_call`.
-/

namespace Lox

open Exec Eval

/-! ## Return statements -/

def Stmt.isReturn : Stmt → Bool
  | .ret _ _ => true
  | _ => false

mutual

/-- The return statements in a statement, those in functions and classes apart. -/
def Stmt.ownReturns : Stmt → List Stmt
  | .ret keyword value => [.ret keyword value]
  | .block body => Stmt.ownReturnsAll body
  | .ifThen _ yes => yes.ownReturns
  | .ifElse _ yes no => yes.ownReturns ++ no.ownReturns
  | .loop _ body => body.ownReturns
  | .expression _ | .print _ | .var _ _ | .function _ | .classDecl _ _ _ => []

def Stmt.ownReturnsAll : List Stmt → List Stmt
  | [] => []
  | s :: ss => s.ownReturns ++ Stmt.ownReturnsAll ss

end

mutual

/-- What breaks no rule outside every function holds no return. -/
theorem Stmt.ownReturns_bind {c : ClassContext} : ∀ {stmt : Stmt} {scopes scopes' : Scopes},
    stmt.violations .outside c scopes = [] → (stmt.bind scopes').ownReturns = []
  | .expression _, _, _, _ | .print _, _, _, _ | .var _ _, _, _, _ | .function _, _, _, _
  | .classDecl _ _ _, _, _, _ => by simp only [Stmt.bind, Stmt.ownReturns]
  | .ret keyword value, _, _, h => by
    simp [Stmt.violations, FunctionContext.returnRule] at h
  | .block body, _, _, h => by
    simp only [Stmt.violations] at h
    simp only [Stmt.bind, Stmt.ownReturns]
    exact Stmt.ownReturnsAll_bindAll h
  | .ifThen test yes, _, _, h => by
    simp only [Stmt.violations, List.append_eq_nil_iff] at h
    simp only [Stmt.bind, Stmt.ownReturns]
    exact Stmt.ownReturns_bind h.2
  | .ifElse test yes no, _, _, h => by
    simp only [Stmt.violations, List.append_eq_nil_iff] at h
    simp only [Stmt.bind, Stmt.ownReturns, List.append_eq_nil_iff]
    exact ⟨Stmt.ownReturns_bind h.1.2, Stmt.ownReturns_bind h.2⟩
  | .loop test body, _, _, h => by
    simp only [Stmt.violations, List.append_eq_nil_iff] at h
    simp only [Stmt.bind, Stmt.ownReturns]
    exact Stmt.ownReturns_bind h.2

theorem Stmt.ownReturnsAll_bindAll {c : ClassContext} : ∀ {stmts : List Stmt}
    {scopes scopes' : Scopes}, Stmt.violationsAll .outside c scopes stmts = [] →
    Stmt.ownReturnsAll (Stmt.bindAll scopes' stmts) = []
  | [], _, _, _ => rfl
  | stmt :: stmts, _, _, h => by
    simp only [Stmt.violationsAll, List.append_eq_nil_iff] at h
    simp only [Stmt.bindAll, Stmt.ownReturnsAll, List.append_eq_nil_iff]
    exact ⟨Stmt.ownReturns_bind h.1, Stmt.ownReturnsAll_bindAll h.2⟩

end

theorem Stmt.mem_ownReturnsAll {r stmt : Stmt} (hr : r ∈ stmt.ownReturns) :
    ∀ {stmts : List Stmt}, stmt ∈ stmts → r ∈ Stmt.ownReturnsAll stmts
  | t :: ts, hm => by
    rcases List.mem_cons.1 hm with rfl | hm
    · exact List.mem_append_left _ hr
    · exact List.mem_append_right _ (Stmt.mem_ownReturnsAll hr hm)

/-! ## The statements of one call -/

/-- The statements that a task executes in its own call, in the order in which they begin, with the
fuel and the machine they begin with. -/
def Task.statements (s : Setting) : Nat → Task → Machine → List (Nat × Stmt × Machine)
  | 0, .execute stmt, m => [(0, stmt, m)]
  | n + 1, .execute stmt, m =>
    (n + 1, stmt, m) :: (Task.begins s n (.execute stmt) m).flatMap fun b => statements s n b.1 b.2
  | n + 1, .executeAll stmts, m =>
    (Task.begins s n (.executeAll stmts) m).flatMap fun b => statements s n b.1 b.2
  | _, _, _ => []

/-- The task executes the statement in its own call. -/
inductive Executes (s : Setting) : Nat → Task → Machine → Nat → Stmt → Machine → Prop
  | here {n stmt m} : Executes s n (.execute stmt) m n stmt m
  | within {n stmt m task' m' k t m''} (hc : Calls s n (.execute stmt) m task' m')
      (he : Executes s n task' m' k t m'') : Executes s (n + 1) (.execute stmt) m k t m''
  | among {n stmts m task' m' k t m''} (hc : Calls s n (.executeAll stmts) m task' m')
      (he : Executes s n task' m' k t m'') : Executes s (n + 1) (.executeAll stmts) m k t m''

section
variable {s : Setting}

/-- The list holds just the statements that are executed. -/
theorem mem_statements_iff : ∀ {n : Nat} {task : Task} {m : Machine} {k : Nat} {t : Stmt}
    {m' : Machine}, (k, t, m') ∈ task.statements s n m ↔ Executes s n task m k t m'
  | n, task, m, k, t, m' => by
    constructor
    · intro h
      cases task with
      | execute stmt =>
        cases n with
        | zero =>
          cases List.mem_singleton.1 h
          exact .here
        | succ n =>
          rcases List.mem_cons.1 h with h | h
          · cases h
            exact .here
          · obtain ⟨⟨task', m₁⟩, hb, hm⟩ := List.mem_flatMap.1 h
            exact .within (calls_of_mem_begins s n hb) (mem_statements_iff.1 hm)
      | executeAll stmts =>
        cases n with
        | zero => cases h
        | succ n =>
          obtain ⟨⟨task', m₁⟩, hb, hm⟩ := List.mem_flatMap.1 h
          exact .among (calls_of_mem_begins s n hb) (mem_statements_iff.1 hm)
      | _ => cases n <;> cases h
    · intro h
      cases h with
      | here => cases n <;> exact List.mem_cons_self
      | within hc he =>
        exact List.mem_cons_of_mem _ (List.mem_flatMap.2
          ⟨_, mem_begins_of_calls s _ hc, mem_statements_iff.2 he⟩)
      | among hc he =>
        exact List.mem_flatMap.2 ⟨_, mem_begins_of_calls s _ hc, mem_statements_iff.2 he⟩

/-- No statement is executed by an expression in the call that the expression stands in. -/
@[simp] theorem statements_evaluate (n : Nat) (e : Expr) (m : Machine) :
    (Task.evaluate e).statements s n m = [] := by
  cases n <;> rfl

/-! ## Executions that end in a return -/

/-- The value of a return statement. -/
def returnValue (s : Setting) (n : Nat) : Option Expr → Exec Value
  | some e => evaluate s n e
  | none => pure .nil

/-- The last of the statements that have been executed is a return, the first one, and one of `own`;
`v` is its value; and the machine is as evaluating the value has left it, but for the frame. -/
def Returned (s : Setting) (executed : List (Nat × Stmt × Machine)) (own : List Stmt) (frame : Id)
    (v : Value) (m' : Machine) : Prop :=
  ∃ earlier k keyword value m₁ m₂, executed = earlier ++ [(k + 1, .ret keyword value, m₁)] ∧
    (∀ x ∈ earlier, x.2.1.isReturn = false) ∧ .ret keyword value ∈ own ∧
    returnValue s k value m₁ = .ok v m₂ ∧ m' = { m₂ with frame }

/-- Statements have been executed up to the first return, if there was one. -/
def UpToReturn (s : Setting) (executed : List (Nat × Stmt × Machine)) (own : List Stmt)
    (frame : Id) : Completion → Machine → Prop
  | .completed, _ => ∀ x ∈ executed, x.2.1.isReturn = false
  | .returned v, m' => Returned s executed own frame v m'

namespace UpToReturn

variable {executed : List (Nat × Stmt × Machine)} {own own' : List Stmt} {frame : Id}
  {c : Completion} {m m' : Machine}

/-- More statements before, among which there is no return. -/
theorem append (h : UpToReturn s executed own frame c m') {before : List (Nat × Stmt × Machine)}
    (hb : ∀ x ∈ before, x.2.1.isReturn = false) (ho : ∀ r ∈ own, r ∈ own') :
    UpToReturn s (before ++ executed) own' frame c m' := by
  cases c with
  | completed =>
    intro x hx
    rcases List.mem_append.1 hx with hx | hx
    · exact hb x hx
    · exact h x hx
  | returned v =>
    obtain ⟨earlier, k, keyword, value, m₁, m₂, rfl, hearlier, hown, hv, hm⟩ := h
    refine ⟨before ++ earlier, k, keyword, value, m₁, m₂, by simp, fun x hx => ?_, ho _ hown, hv, hm⟩
    rcases List.mem_append.1 hx with hx | hx
    · exact hb x hx
    · exact hearlier x hx

/-- One more statement before, which is no return. -/
theorem cons (h : UpToReturn s executed own frame c m') {n : Nat} {stmt : Stmt}
    (hs : stmt.isReturn = false) (ho : ∀ r ∈ own, r ∈ own') :
    UpToReturn s ((n, stmt, m) :: executed) own' frame c m' := by
  have hb : ∀ x ∈ [(n, stmt, m)], x.2.1.isReturn = false := fun x hx => by
    cases List.mem_singleton.1 hx
    exact hs
  exact h.append hb ho

theorem inFrame (h : UpToReturn s executed own frame c m') (outer : Id) :
    UpToReturn s executed own outer c { m' with frame := outer } := by
  cases c with
  | completed => exact h
  | returned v =>
    obtain ⟨earlier, k, keyword, value, m₁, m₂, he, hearlier, hown, hv, rfl⟩ := h
    exact ⟨earlier, k, keyword, value, m₁, m₂, he, hearlier, hown, hv, rfl⟩

end UpToReturn

end

section
variable {s : Setting} {n : Nat}

theorem ends_anyhow {α : Type} (x : Exec α) (m : Machine) :
    Ends x m (fun _ _ => True) (fun _ _ => True) := by
  cases h : x m with
  | ok a m' => exact ends_of_ok h trivial
  | error i m' => exact ends_of_error h trivial

/-- What is to be shown of a statement. -/
def Upholds (s : Setting) (n : Nat) (stmt : Stmt) : Prop :=
  ∀ m, Ends (execute s n stmt) m
    (UpToReturn s ((Task.execute stmt).statements s n m) stmt.ownReturns m.frame) fun _ _ => True

def UpholdsAll (s : Setting) (n : Nat) (stmts : List Stmt) : Prop :=
  ∀ m, Ends (executeAll s n stmts) m
    (UpToReturn s ((Task.executeAll stmts).statements s n m) (Stmt.ownReturnsAll stmts) m.frame)
    fun _ _ => True

theorem frame_of_evaluate {e : Expr} {m m' : Machine} {v : Value}
    (h : evaluate s n e m = .ok v m') : m'.frame = m.frame :=
  (restored_evaluate (.inl ⟨v, h⟩)).frame

theorem frame_of_execute {stmt : Stmt} {m m' : Machine} {c : Completion}
    (h : execute s n stmt m = .ok c m') : m'.frame = m.frame :=
  (restored_execute (.inl ⟨c, h⟩)).frame

/-- A statement that executes no other one and does not return. -/
theorem upholds_of_completes {stmt : Stmt} (hs : stmt.isReturn = false)
    (hl : ∀ m, (Task.execute stmt).statements s n m = [(n, stmt, m)])
    (hc : ∀ m, Ends (execute s n stmt) m (fun c _ => c = .completed) fun _ _ => True) :
    Upholds s n stmt := by
  intro m
  refine (hc m).mono (fun c m' _ h => ?_) fun _ _ h => h
  rw [h, hl]
  intro x hx
  cases List.mem_singleton.1 hx
  exact hs

/-- A statement that executes others in turn. -/
theorem UpToReturn.of_cons {stmt : Stmt} {own : List Stmt} {executed : List (Nat × Stmt × Machine)}
    {frame : Id} {c : Completion} {m m' : Machine} (h : UpToReturn s executed own frame c m')
    (hl : (Task.execute stmt).statements s n m = (n, stmt, m) :: executed)
    (hs : stmt.isReturn = false) (ho : ∀ r ∈ own, r ∈ stmt.ownReturns) (hf : frame = m.frame) :
    UpToReturn s ((Task.execute stmt).statements s n m) stmt.ownReturns m.frame c m' := by
  rw [hl, ← hf]
  exact h.cons hs ho

theorem upholds_ret (keyword : Token) (value : Option Expr) :
    Upholds s (n + 1) (.ret keyword value) := by
  intro m
  have hl : (Task.execute (.ret keyword value)).statements s (n + 1) m =
      [] ++ [(n + 1, .ret keyword value, m)] := by
    cases value <;> simp [Task.statements, Task.begins]
  have returned : ∀ {v m'}, returnValue s n value m = .ok v m' → m'.frame = m.frame →
      UpToReturn s ((Task.execute (.ret keyword value)).statements s (n + 1) m)
        (Stmt.ret keyword value).ownReturns m.frame (.returned v) m' := by
    intro v m' hv hf
    refine ⟨[], n, keyword, value, m, m', hl, List.forall_mem_nil _, List.mem_cons_self, hv, ?_⟩
    rw [← hf]
  cases value with
  | none => exact ends_pure (returned rfl rfl)
  | some e =>
    simp only [Eval.execute]
    exact (ends_anyhow _ m).bind fun v m₁ hv _ => ends_pure (returned hv (frame_of_evaluate hv))

theorem upholds_branch (ih : ∀ stmt, Upholds s n stmt) {stmt branch : Stmt} {m m₁ : Machine}
    (hl : (Task.execute stmt).statements s (n + 1) m =
      (n + 1, stmt, m) :: (Task.execute branch).statements s n m₁)
    (hs : stmt.isReturn = false) (ho : ∀ r ∈ branch.ownReturns, r ∈ stmt.ownReturns)
    (hf : m₁.frame = m.frame) :
    Ends (execute s n branch) m₁
      (UpToReturn s ((Task.execute stmt).statements s (n + 1) m) stmt.ownReturns m.frame)
      fun _ _ => True :=
  (ih branch m₁).mono (fun _ _ _ h => h.of_cons hl hs ho hf) fun _ _ h => h

theorem upholds_ifThen (ih : ∀ stmt, Upholds s n stmt) (test : Expr) (yes : Stmt) :
    Upholds s (n + 1) (.ifThen test yes) := by
  intro m
  simp only [Eval.execute]
  refine (ends_anyhow _ m).bind fun v m₁ hv _ => ?_
  by_cases ht : v.truthy = true
  · simp only [ht, if_true]
    exact upholds_branch ih (by simp [Task.statements, Task.begins, hv, ht]) rfl (fun _ hr => hr)
      (frame_of_evaluate hv)
  · simp only [ht]
    refine ends_pure fun x hx => ?_
    simp [Task.statements, Task.begins, hv, ht] at hx
    rw [hx]
    rfl

theorem upholds_ifElse (ih : ∀ stmt, Upholds s n stmt) (test : Expr) (yes no : Stmt) :
    Upholds s (n + 1) (.ifElse test yes no) := by
  intro m
  simp only [Eval.execute]
  refine (ends_anyhow _ m).bind fun v m₁ hv _ => ?_
  cases ht : v.truthy with
  | true =>
    exact upholds_branch ih (by simp [Task.statements, Task.begins, hv, ht]) rfl
      (fun _ hr => List.mem_append_left _ hr) (frame_of_evaluate hv)
  | false =>
    exact upholds_branch ih (by simp [Task.statements, Task.begins, hv, ht]) rfl
      (fun _ hr => List.mem_append_right _ hr) (frame_of_evaluate hv)

theorem upholds_loop (ih : ∀ stmt, Upholds s n stmt) (test : Expr) (body : Stmt) :
    Upholds s (n + 1) (.loop test body) := by
  intro m
  simp only [Eval.execute]
  refine (ends_anyhow _ m).bind fun v m₁ hv _ => ?_
  by_cases ht : v.truthy = true
  · simp only [ht, if_true]
    have hf := frame_of_evaluate hv
    refine (ih body m₁).bind fun c m₂ hb h₁ => ?_
    cases c with
    | returned w =>
      exact ends_pure (h₁.of_cons (by simp [Task.statements, Task.begins, hv, ht, hb]) rfl
        (fun _ hr => hr) hf)
    | completed =>
      -- the round has executed no return, so the first one is in the rounds to come
      refine (ih (.loop test body) m₂).mono (fun c m₃ _ h₂ => ?_) fun _ _ h => h
      exact (h₂.append h₁ fun _ hr => hr).of_cons (by simp [Task.statements, Task.begins, hv, ht, hb])
        rfl (fun _ hr => hr) ((frame_of_execute hb).trans hf)
  · simp only [ht]
    refine ends_pure fun x hx => ?_
    simp [Task.statements, Task.begins, hv, ht] at hx
    rw [hx]
    rfl

theorem upholds_block (ihs : ∀ stmts, UpholdsAll s n stmts) (body : List Stmt) :
    Upholds s (n + 1) (.block body) := by
  intro m
  simp only [Eval.execute]
  refine ends_bind (ends_of_ok rfl fun _ => ends_bind
    (ends_of_ok (t := { m.inBlock with frame := m.frame }) rfl fun _ => ends_inFrame ?_))
  refine (ihs body m.inBlock).mono (fun c m₁ _ h => ?_) fun _ _ h => h
  exact (h.inFrame m.frame).of_cons (by simp [Task.statements, Task.begins]) rfl (fun _ hr => hr) rfl

theorem upholds_succ (ih : ∀ stmt, Upholds s n stmt) (ihs : ∀ stmts, UpholdsAll s n stmts)
    (stmt : Stmt) : Upholds s (n + 1) stmt := by
  cases stmt with
  | ret keyword value => exact upholds_ret keyword value
  | loop test body => exact upholds_loop ih test body
  | ifThen test yes => exact upholds_ifThen ih test yes
  | ifElse test yes no => exact upholds_ifElse ih test yes no
  | block body => exact upholds_block ihs body
  | expression e =>
    refine upholds_of_completes rfl (fun m => by simp [Task.statements, Task.begins]) fun m => ?_
    exact (ends_anyhow _ m).bind fun _ _ _ _ => ends_pure rfl
  | print e =>
    refine upholds_of_completes rfl (fun m => by simp [Task.statements, Task.begins]) fun m => ?_
    exact (ends_anyhow _ m).bind fun _ _ _ _ => (ends_anyhow _ _).bind fun _ _ _ _ => ends_pure rfl
  | var name init =>
    cases init with
    | none => exact upholds_of_completes rfl (fun _ => rfl) fun m => ends_of_ok rfl rfl
    | some e =>
      refine upholds_of_completes rfl (fun m => by simp [Task.statements, Task.begins]) fun m => ?_
      exact (ends_anyhow _ m).bind fun _ _ _ _ => (ends_anyhow _ _).bind fun _ _ _ _ => ends_pure rfl
  | function decl => exact upholds_of_completes rfl (fun _ => rfl) fun m => ends_of_ok rfl rfl
  | classDecl name superclass methods =>
    refine upholds_of_completes rfl (fun _ => rfl) fun m => ?_
    exact (ends_anyhow _ m).bind fun _ _ _ _ => ends_pure rfl

theorem upholdsAll_succ (ih : ∀ stmt, Upholds s n stmt) (ihs : ∀ stmts, UpholdsAll s n stmts)
    (stmts : List Stmt) : UpholdsAll s (n + 1) stmts := by
  intro m
  cases stmts with
  | nil => exact ends_pure (List.forall_mem_nil _)
  | cons stmt stmts =>
    simp only [Eval.executeAll]
    refine (ih stmt m).bind fun c m₁ hs h₁ => ?_
    cases c with
    | returned v =>
      have hl : (Task.executeAll (stmt :: stmts)).statements s (n + 1) m =
          [] ++ (Task.execute stmt).statements s n m := by
        simp [Task.statements, Task.begins, hs]
      rw [hl]
      exact ends_pure (h₁.append (List.forall_mem_nil _) fun _ hr => List.mem_append_left _ hr)
    | completed =>
      have hl : (Task.executeAll (stmt :: stmts)).statements s (n + 1) m =
          (Task.execute stmt).statements s n m ++ (Task.executeAll stmts).statements s n m₁ := by
        simp [Task.statements, Task.begins, hs]
      rw [hl, ← frame_of_execute hs]
      refine (ihs stmts m₁).mono (fun c m₂ _ h₂ => ?_) fun _ _ h => h
      exact h₂.append h₁ fun _ hr => List.mem_append_right _ hr

/-- **Statements are executed up to the first return.** By induction on the fuel. -/
theorem upholds (s : Setting) : ∀ n, (∀ stmt, Upholds s n stmt) ∧ ∀ stmts, UpholdsAll s n stmts
  | 0 => ⟨fun _ _ => ends_of_error rfl trivial, fun _ _ => ends_of_error rfl trivial⟩
  | n + 1 =>
    have ⟨ih, ihs⟩ := upholds s n
    ⟨upholds_succ ih ihs, upholdsAll_succ ih ihs⟩

/-! ## Programs and calls -/

theorem returned_of_execute {stmt : Stmt} {m m' : Machine} {v : Value}
    (h : execute s n stmt m = .ok (.returned v) m') :
    Returned s ((Task.execute stmt).statements s n m) stmt.ownReturns m.frame v m' :=
  ((upholds s n).1 stmt m).ok h

/-- A statement that holds no return completes. -/
theorem completed_of_ownReturns_eq_nil {stmt : Stmt} (hs : stmt.ownReturns = []) {m m' : Machine}
    {c : Completion} (h : execute s n stmt m = .ok c m') : c = .completed := by
  cases c with
  | completed => rfl
  | returned v =>
    obtain ⟨_, _, _, _, _, _, -, -, hown, -⟩ := returned_of_execute h
    rw [hs] at hown
    cases hown

theorem Program.ownReturns_of_mem_bound {p : Program} (hp : p.violations = []) {stmt : Stmt}
    (hm : stmt ∈ p.bound) : stmt.ownReturns = [] := by
  have hall : Stmt.ownReturnsAll p.bound = [] := Stmt.ownReturnsAll_bindAll hp
  refine List.eq_nil_iff_forall_not_mem.2 fun r hr => ?_
  have hr' := Stmt.mem_ownReturnsAll hr hm
  rw [hall] at hr'
  cases hr'

/-- A function that is run has the value of the return that ends its body, or `nil`. -/
theorem returned_of_runFunction {f : Id} {args : List Value} {c : Closure} {m m' : Machine}
    {v : Value} (hc : m.heap.functions[f]? = some c) (hi : c.isInitializer = false)
    (h : runFunction s (n + 1) f args m = .ok v m') :
    let executed := (Task.executeAll c.decl.body).statements s n (m.inBody c args)
    Returned s executed (Stmt.ownReturnsAll c.decl.body) m.frame v m' ∨
      (∀ x ∈ executed, x.2.1.isReturn = false) ∧ v = .nil := by
  intro executed
  have hx : Ends (runFunction s (n + 1) f args) m (fun v m' =>
      Returned s executed (Stmt.ownReturnsAll c.decl.body) m.frame v m' ∨
        (∀ x ∈ executed, x.2.1.isReturn = false) ∧ v = .nil) fun _ _ => True := by
    simp only [Eval.runFunction]
    refine ends_bind (ends_of_ok rfl fun _ => ?_)
    simp only [hc, hi]
    refine ends_bind (ends_of_ok (t := { m.inBody c args with frame := m.frame }) rfl fun _ => ?_)
    have hb := (upholds s n).2 c.decl.body (m.inBody c args)
    refine Ends.bind (ends_inFrame (hb.mono (fun c m₁ _ h => h.inFrame m.frame) fun _ _ h => h))
      fun ending m₁ _ h => ?_
    cases ending with
    | returned w => exact ends_pure (.inl h)
    | completed => exact ends_pure (.inr ⟨h, rfl⟩)
  exact hx.ok h

/-- What a function that is called comes to, and where. -/
theorem apply_of_asCall {call : Call} {f : Id} {args : List Value} {m m' : Machine} {v : Value}
    (h : asCall s call (apply s n (.function f) args) m = .ok v m') :
    ∃ k c m₁, n = k + 2 ∧ m.heap.functions[f]? = some c ∧
      runFunction s (k + 1) f args (m.enter s call) = .ok v m₁ ∧
      m' = { m₁ with calls := m₁.calls.pop } := by
  have ha : ∃ m₁, apply s n (.function f) args (m.enter s call) = .ok v m₁ ∧
      m' = { m₁ with calls := m₁.calls.pop } := by
    have hx : Ends (asCall s call (apply s n (.function f) args)) m (fun v m' =>
        ∃ m₁, apply s n (.function f) args (m.enter s call) = .ok v m₁ ∧
          m' = { m₁ with calls := m₁.calls.pop }) fun _ _ => True :=
      ends_asCall ((ends_anyhow _ _).mono (fun v m₁ hr _ => ⟨m₁, hr, rfl⟩) fun _ _ h => h)
    exact hx.ok h
  obtain ⟨m₁, ha, hm⟩ := ha
  match n, ha with
  | 0, ha => cases ha
  | 1, ha => cases ha
  | k + 2, ha =>
    cases hc : m.heap.functions[f]? with
    | some c => exact ⟨k, c, m₁, rfl, rfl, ha, hm⟩
    | none =>
      have hc' : (m.enter s call).heap.functions[f]? = none := hc
      have hr : runFunction s (k + 1) f args (m.enter s call) =
          .error (.broken .dangling) (m.enter s call) := by
        simp only [Eval.runFunction, heap_bind, hc']
        rfl
      cases ha.symm.trans hr

end

/-- **A return ends its call and no other.** The statements that a statement executes in its own
call, which are listed in order, end with the return if it ends in one: that one is the first, it
stands in the statement itself, and its value is the one that is returned. A statement at the top
level of a program that breaks no rule does not end in a return. And a call of a function that is no
initializer has the value of the first return that its own body executes, with which the body ends,
or `nil` if it executes none. -/
theorem return_ends_its_call (s : Setting) :
    (∀ n task m k t m', (k, t, m') ∈ Task.statements s n task m ↔ Executes s n task m k t m') ∧
    (∀ n stmt m v m', execute s n stmt m = .ok (.returned v) m' →
      Returned s ((Task.execute stmt).statements s n m) stmt.ownReturns m.frame v m') ∧
    (∀ p : Program, p.violations = [] → ∀ stmt ∈ p.bound, ∀ n m c m',
      execute s n stmt m = .ok c m' → c = .completed) ∧
    ∀ n call f args m v m', asCall s call (apply s n (.function f) args) m = .ok v m' →
      ∃ k c, n = k + 2 ∧ m.heap.functions[f]? = some c ∧ (c.isInitializer = false →
        let executed := (Task.executeAll c.decl.body).statements s k ((m.enter s call).inBody c args)
        (∃ m₁, Returned s executed (Stmt.ownReturnsAll c.decl.body) m.frame v m₁ ∧
          m' = { m₁ with calls := m₁.calls.pop }) ∨
        (∀ x ∈ executed, x.2.1.isReturn = false) ∧ v = .nil) := by
  refine ⟨fun _ _ _ _ _ _ => mem_statements_iff, fun _ _ _ _ _ => returned_of_execute,
    fun p hp stmt hm _ _ _ _ => completed_of_ownReturns_eq_nil (p.ownReturns_of_mem_bound hp hm),
    fun n call f args m v m' h => ?_⟩
  obtain ⟨k, c, m₁, hk, hc, hr, hm⟩ := apply_of_asCall h
  have hc' : (m.enter s call).heap.functions[f]? = some c := hc
  refine ⟨k, c, hk, hc, fun hi => ?_⟩
  exact (returned_of_runFunction hc' hi hr).imp_left fun h => ⟨m₁, h, hm⟩

/-- A return in the second round of a loop, two blocks deep, in front of a statement. -/
theorem return_ends_call_in_loop :
    let s : Setting := { path := "", natives := [Native.clock] }
    let source := "fun f(x) \x7b while (true) \x7b \x7b if (x) return x; \x7d x = true; \x7d print x; \x7d"
    let m := Session.after s [] [(30, source)]
    let keyword : Token := ⟨.kwReturn, "return", 1, 0⟩
    let block : Stmt := .block [.ret keyword none, .print (.literal .nil)]
    (∃ m', execute s 5 block m = .ok (.returned .nil) m' ∧
      Returned s ((Task.execute block).statements s 5 m) block.ownReturns m.frame .nil m') ∧
    ((Program.compile source).violations = [] ∧ ∃ stmt ∈ (Program.compile source).bound, ∃ c m',
      execute s 30 stmt m = .ok c m' ∧ c = .completed) ∧
    ∃ c m', m.heap.functions[0]? = some c ∧ c.isInitializer = false ∧
      asCall s ⟨"f", 1⟩ (apply s 30 (.function 0) [.nil]) m = .ok (.bool true) m' ∧
      ∃ m₁, Returned s ((Task.executeAll c.decl.body).statements s 28
        ((m.enter s ⟨"f", 1⟩).inBody c [.nil])) (Stmt.ownReturnsAll c.decl.body) m.frame
        (.bool true) m₁ := by
  intro s source m keyword block
  obtain ⟨-, hexec, htop, hcall⟩ := return_ends_its_call s
  obtain ⟨hrules, hstmt, hc, happly⟩ : (Program.compile source).violations = [] ∧
      (∃ stmt ∈ (Program.compile source).bound, (execute s 30 stmt).run' m = some .completed) ∧
      m.heap.functions[0]?.map (·.isInitializer) = some false ∧
      (asCall s ⟨"f", 1⟩ (apply s 30 (.function 0) [.nil])).run' m = some (.bool true) := by
    decide +kernel
  obtain ⟨stmt, hmem, hx⟩ := hstmt
  obtain ⟨m₁, hx⟩ := ok_of_run' hx
  obtain ⟨m₂, ha⟩ := ok_of_run' happly
  obtain ⟨c, hf, hi⟩ := Option.map_eq_some_iff.1 hc
  have hblock : execute s 5 block m = .ok (.returned .nil) { m.inBlock with frame := m.frame } := rfl
  refine ⟨⟨_, hblock, hexec _ _ _ _ _ hblock⟩,
    ⟨hrules, stmt, hmem, _, m₁, hx, htop _ hrules stmt hmem _ _ _ _ hx⟩, c, m₂, hf, hi, ha, ?_⟩
  obtain ⟨k, c', hk, hf', hr⟩ := hcall _ _ _ _ _ _ _ ha
  cases hf.symm.trans hf'
  obtain rfl : k = 28 := by omega
  rcases hr hi with ⟨m₃, hret, -⟩ | ⟨-, hnil⟩
  · exact ⟨m₃, hret⟩
  · cases hnil

end Lox

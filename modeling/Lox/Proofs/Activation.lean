import Lox.Proofs.Exec
import Lox.Session

/-!
# The moments of a run

Evaluation is a tree of tasks: evaluating an expression, applying a callee, running a function,
executing a statement. `Calls s n task m task' m'` says that `task`, begun in the machine `m` with
fuel `n + 1`, comes to begin `task'` in `m'`; it has one rule for each place where the evaluator
calls itself. `Session.Moment` holds of every task that a whole session begins, with the machine it
begins in.
-/

namespace Lox

/-- A step of evaluation. -/
inductive Task where
  | evaluate (e : Expr)
  | evaluateAll (es : List Expr)
  | apply (callee : Value) (args : List Value)
  | runFunction (f : Id) (args : List Value)
  | execute (stmt : Stmt)
  | executeAll (stmts : List Stmt)

namespace Machine

/-- The machine in which the body of a closure runs. -/
def inBody (m : Machine) (c : Closure) (args : List Value) : Machine :=
  let vars := Table.insertAll [] ((c.decl.params.map (·.lexeme)).zip args)
  { m with
    heap := (m.heap.newFrame ⟨vars, some c.frame⟩).2
    frame := m.heap.frames.size }

/-- The machine in which the statements of a block run. -/
def inBlock (m : Machine) : Machine :=
  { m with
    heap := (m.heap.newFrame ⟨[], some m.frame⟩).2
    frame := m.heap.frames.size }

/-- The machine with a new instance of a class. -/
def withInstance (m : Machine) (c : Id) : Machine := { m with heap := (m.heap.newInstance c).2 }

/-- The machine with a method bound to an instance. -/
def withBound (m : Machine) (method object : Id) : Machine :=
  { m with heap := (m.heap.bindMethod method object).2 }

end Machine

open Eval

/-- The tasks that a task begins (module doc). -/
inductive Calls (s : Setting) (n : Nat) : Task → Machine → Task → Machine → Prop
  | group {e m} : Calls s n (.evaluate (.group e)) m (.evaluate e) m
  | operand {op token e m} : Calls s n (.evaluate (.unary op token e)) m (.evaluate e) m
  | left {op token l r m} : Calls s n (.evaluate (.binary op token l r)) m (.evaluate l) m
  | right {op token l r m a m'} (hl : evaluate s n l m = .ok a m') :
      Calls s n (.evaluate (.binary op token l r)) m (.evaluate r) m'
  | test {op token l r m} : Calls s n (.evaluate (.logical op token l r)) m (.evaluate l) m
  | undecided {op token l r m a m'} (hl : evaluate s n l m = .ok a m')
      (hd : decides op a = false) :
      Calls s n (.evaluate (.logical op token l r)) m (.evaluate r) m'
  | assigned {ref value m} : Calls s n (.evaluate (.assign ref value)) m (.evaluate value) m
  | callee {callee paren args m} :
      Calls s n (.evaluate (.call callee paren args)) m (.evaluate callee) m
  | arguments {callee paren args m f m'} (hf : evaluate s n callee m = .ok f m') :
      Calls s n (.evaluate (.call callee paren args)) m (.evaluateAll args) m'
  | apply {callee paren args m f m₁ vs m₂ c} (hf : evaluate s n callee m = .ok f m₁)
      (hvs : evaluateAll s n args m₁ = .ok vs m₂) (hc : callable? s m₂.heap f = some c)
      (hl : vs.length = c.arity) :
      Calls s n (.evaluate (.call callee paren args)) m (.apply f vs)
        (m₂.enter s ⟨c.name, paren.line⟩)
  | getObject {object property m} :
      Calls s n (.evaluate (.get object property)) m (.evaluate object) m
  | setObject {object property value m} :
      Calls s n (.evaluate (.set object property value)) m (.evaluate object) m
  | setValue {object property value m o m'} (ho : evaluate s n object m = .ok (.object o) m') :
      Calls s n (.evaluate (.set object property value)) m (.evaluate value) m'
  | head {e es m} : Calls s n (.evaluateAll (e :: es)) m (.evaluate e) m
  | tail {e es m v m'} (hv : evaluate s n e m = .ok v m') :
      Calls s n (.evaluateAll (e :: es)) m (.evaluateAll es) m'
  | function {f args m} : Calls s n (.apply (.function f) args) m (.runFunction f args) m
  | initializer {c args m init} (hi : (m.withInstance c).heap.initializer? c = some init) :
      Calls s n (.apply (.cls c) args) m
        (.runFunction ((m.withInstance c).heap.bindMethod init m.heap.instances.size).1 args)
        ((m.withInstance c).withBound init m.heap.instances.size)
  | body {f args m closure} (hc : m.heap.functions[f]? = some closure) :
      Calls s n (.runFunction f args) m (.executeAll closure.decl.body) (m.inBody closure args)
  | expression {e m} : Calls s n (.execute (.expression e)) m (.evaluate e) m
  | print {e m} : Calls s n (.execute (.print e)) m (.evaluate e) m
  | init {name e m} : Calls s n (.execute (.var name (some e))) m (.evaluate e) m
  | block {body m} : Calls s n (.execute (.block body)) m (.executeAll body) m.inBlock
  | thenTest {test yes m} : Calls s n (.execute (.ifThen test yes)) m (.evaluate test) m
  | thenYes {test yes m v m'} (hv : evaluate s n test m = .ok v m') (ht : v.truthy = true) :
      Calls s n (.execute (.ifThen test yes)) m (.execute yes) m'
  | elseTest {test yes no m} : Calls s n (.execute (.ifElse test yes no)) m (.evaluate test) m
  | elseYes {test yes no m v m'} (hv : evaluate s n test m = .ok v m') (ht : v.truthy = true) :
      Calls s n (.execute (.ifElse test yes no)) m (.execute yes) m'
  | elseNo {test yes no m v m'} (hv : evaluate s n test m = .ok v m') (ht : v.truthy = false) :
      Calls s n (.execute (.ifElse test yes no)) m (.execute no) m'
  | loopTest {test body m} : Calls s n (.execute (.loop test body)) m (.evaluate test) m
  | loopBody {test body m v m'} (hv : evaluate s n test m = .ok v m') (ht : v.truthy = true) :
      Calls s n (.execute (.loop test body)) m (.execute body) m'
  | loopAgain {test body m v m₁ m₂} (hv : evaluate s n test m = .ok v m₁) (ht : v.truthy = true)
      (hb : execute s n body m₁ = .ok .completed m₂) :
      Calls s n (.execute (.loop test body)) m (.execute (.loop test body)) m₂
  | returned {keyword e m} : Calls s n (.execute (.ret keyword (some e))) m (.evaluate e) m
  | first {stmt stmts m} : Calls s n (.executeAll (stmt :: stmts)) m (.execute stmt) m
  | rest {stmt stmts m m'} (hs : execute s n stmt m = .ok .completed m') :
      Calls s n (.executeAll (stmt :: stmts)) m (.executeAll stmts) m'

/-- The tasks that a task begins, directly or through others, itself included. -/
inductive Visits (s : Setting) : Nat → Task → Machine → Nat → Task → Machine → Prop
  | here {n task m} : Visits s n task m n task m
  | call {n task m task' m' k task'' m''} (hc : Calls s n task m task' m')
      (hv : Visits s n task' m' k task'' m'') : Visits s (n + 1) task m k task'' m''

/-! ## Sessions -/

/-- The ending of a program that is interrupted. -/
def Interrupt.ending : Interrupt → Ending
  | .fault f => .fault f
  | .broken b => .broken b
  | .outOfFuel => .outOfFuel

theorem Interrupt.ending_ne_finished (i : Interrupt) : i.ending ≠ .finished := by
  cases i <;> exact fun h => by cases h

/-- A program in which nothing is wrong before it runs. -/
structure Program.Accepted (p : Program) : Prop where
  diagnostics : p.diagnostics = []
  violations : p.violations = []

instance (p : Program) : Decidable p.Accepted :=
  decidable_of_iff (p.diagnostics = [] ∧ p.violations = [])
    ⟨fun h => ⟨h.1, h.2⟩, fun h => ⟨h.diagnostics, h.violations⟩⟩

namespace Session

/-- The machine after a number of sources, each with the fuel it was run with. -/
def after (s : Setting) (clock : Clock) (runs : List (Nat × String)) : Machine :=
  runs.foldl (fun m r => (run s r.1 r.2 {} m).machine) (.initial s.natives clock)

/-- The machine in which the first statement of a source begins. -/
def begun (s : Setting) (source : String) (m : Machine) : Machine :=
  (compiled (Program.compile source) m).record
    (.interpret s.path (Program.compile source).bound.length)

/-- The tasks of a session: its top-level statements in turn, and whatever these call. -/
inductive Moment (s : Setting) (clock : Clock) (runs : List (Nat × String)) :
    Nat → Task → Machine → Prop
  | statement {earlier later fuel source before stmt after' m}
      (hr : runs = earlier ++ (fuel, source) :: later)
      (ha : (Program.compile source).Accepted)
      (hs : (Program.compile source).bound = before ++ stmt :: after')
      (hm : executeEach s fuel before (begun s source (after s clock earlier)) = .ok () m) :
      Moment s clock runs fuel (.execute stmt) m
  | call {n task m task' m'} (hm : Moment s clock runs (n + 1) task m)
      (hc : Calls s n task m task' m') : Moment s clock runs n task' m'

theorem Moment.visits {s : Setting} {clock : Clock} {runs : List (Nat × String)} {n k : Nat}
    {task task' : Task} {m m' : Machine} (hm : Moment s clock runs n task m)
    (hv : Visits s n task m k task' m') : Moment s clock runs k task' m' := by
  induction hv with
  | here => exact hm
  | call hc _ ih => exact ih (hm.call hc)

theorem after_append (s : Setting) (clock : Clock) (runs : List (Nat × String)) (fuel : Nat)
    (source : String) :
    after s clock (runs ++ [(fuel, source)]) = (run s fuel source {} (after s clock runs)).machine := by
  simp [after]

/-- Statements after others that have been executed. -/
theorem executeEach_append_of_ok {s : Setting} {fuel : Nat} {m₁ : Machine} :
    ∀ {ts : List Stmt} (us : List Stmt) {m : Machine}, executeEach s fuel ts m = .ok () m₁ →
      executeEach s fuel (ts ++ us) m = executeEach s fuel us m₁
  | [], us, m, h => by
    cases h
    rfl
  | t :: ts, us, m, h => by
    obtain ⟨c, m₂, ht, hts⟩ := bind_eq_ok h
    exact (bind_ok ht).trans (executeEach_append_of_ok us hts)

/-- Statements after others that have been interrupted. -/
theorem executeEach_append_of_error {s : Setting} {fuel : Nat} {m₁ : Machine} {i : Interrupt} :
    ∀ {ts : List Stmt} (us : List Stmt) {m : Machine}, executeEach s fuel ts m = .error i m₁ →
      executeEach s fuel (ts ++ us) m = .error i m₁
  | [], us, m, h => by cases h
  | t :: ts, us, m, h => by
    cases ht : execute s fuel t m with
    | ok c m₂ =>
      have hts : executeEach s fuel ts m₂ = .error i m₁ := (bind_ok ht).symm.trans h
      exact (bind_ok ht).trans (executeEach_append_of_error us hts)
    | error j m₂ =>
      have he : EStateM.Result.error j m₂ = .error i m₁ := (bind_error ht).symm.trans h
      cases he
      exact bind_error ht

/-- Running an accepted source executes its statements. -/
theorem run_of_accepted (s : Setting) (fuel : Nat) {source : String}
    (ha : (Program.compile source).Accepted) (m : Machine) :
    run s fuel source {} m =
      ⟨[], (interpret s fuel (Program.compile source).bound
          (compiled (Program.compile source) m)).1,
        (interpret s fuel (Program.compile source).bound
          (compiled (Program.compile source) m)).2⟩ := by
  simp only [run, runProgram, ha.diagnostics, ha.violations, List.append_nil, List.isEmpty_nil,
    Bool.true_or, if_true, interpretRounds, Bool.false_eq_true, if_false]
  cases interpret s fuel (Program.compile source).bound (compiled (Program.compile source) m) with
  | mk ending m => cases ending <;> rfl

/-- An accepted source whose statements are executed to their end. -/
theorem run_of_ok {s : Setting} {fuel : Nat} {m m₁ : Machine} {source : String}
    (ha : (Program.compile source).Accepted)
    (h : executeEach s fuel (Program.compile source).bound (begun s source m) = .ok () m₁) :
    run s fuel source {} m = ⟨[], .finished, m₁⟩ := by
  have hi : interpret s fuel (Program.compile source).bound (compiled (Program.compile source) m) =
      (.finished, m₁) := by
    unfold begun at h
    simp only [interpret, h]
  rw [run_of_accepted s fuel ha, hi]

/-- An accepted source whose statements are interrupted. -/
theorem run_of_error {s : Setting} {fuel : Nat} {m m₁ : Machine} {source : String}
    (ha : (Program.compile source).Accepted) {i : Interrupt} (hf : m₁.frame = globals)
    (h : executeEach s fuel (Program.compile source).bound (begun s source m) = .error i m₁) :
    run s fuel source {} m = ⟨[], i.ending, m₁⟩ := by
  have hback : { m₁ with frame := globals } = m₁ := by rw [← hf]
  have hi : interpret s fuel (Program.compile source).bound (compiled (Program.compile source) m) =
      (i.ending, m₁) := by
    unfold begun at h
    cases i <;> simp only [interpret, h, Interrupt.ending, hback]
  rw [run_of_accepted s fuel ha, hi]

/-- A source that is not accepted does not run. -/
theorem run_of_rejected (s : Setting) (fuel : Nat) {source : String}
    (hr : ¬ (Program.compile source).Accepted) (m : Machine) :
    (run s fuel source {} m).ending = .finished ∧
      (run s fuel source {} m).machine = compiled (Program.compile source) m := by
  simp only [run, runProgram, Bool.or_false]
  split
  · rename_i hd
    split
    · rename_i hv
      simp only [List.isEmpty_iff, List.append_eq_nil_iff] at hd hv
      exact absurd ⟨hd, hv.2⟩ hr
    · exact ⟨rfl, rfl⟩
  · exact ⟨rfl, rfl⟩

/-- What a run comes to: the source is rejected, or its statements are executed to their end, or
they are interrupted. -/
inductive Ran (s : Setting) (fuel : Nat) (source : String) (m : Machine) : Outcome → Prop
  | rejected {diagnostics} (hr : ¬ (Program.compile source).Accepted) :
      Ran s fuel source m ⟨diagnostics, .finished, compiled (Program.compile source) m⟩
  | finished {m₁} (ha : (Program.compile source).Accepted)
      (hx : executeEach s fuel (Program.compile source).bound (begun s source m) = .ok () m₁) :
      Ran s fuel source m ⟨[], .finished, m₁⟩
  | interrupted {i m₁ frame} (ha : (Program.compile source).Accepted)
      (hx : executeEach s fuel (Program.compile source).bound (begun s source m) = .error i m₁)
      (hf : frame = m₁.frame ∨ frame = globals) :
      Ran s fuel source m ⟨[], i.ending, { m₁ with frame }⟩

theorem ran (s : Setting) (fuel : Nat) (source : String) (m : Machine) :
    Ran s fuel source m (run s fuel source {} m) := by
  by_cases ha : (Program.compile source).Accepted
  · cases hx : executeEach s fuel (Program.compile source).bound (begun s source m) with
    | ok _ m₁ =>
      rw [run_of_ok ha hx]
      exact .finished ha hx
    | error i m₁ =>
      have hi := hx
      unfold begun at hi
      rw [run_of_accepted s fuel ha]
      cases i with
      | fault f =>
        simp only [interpret, hi]
        exact .interrupted ha hx (.inr rfl)
      | broken b | outOfFuel =>
        simp only [interpret, hi]
        exact .interrupted ha hx (.inl rfl)
  · obtain ⟨hending, hmachine⟩ := run_of_rejected s fuel ha m
    generalize run s fuel source {} m = outcome at hending hmachine
    cases outcome
    cases hending
    cases hmachine
    exact .rejected ha

end Session

end Lox

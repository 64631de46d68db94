import Lox.Proofs.Activation

/-!
# Moments, computed

The tasks that a task begins, as a list (`Task.begins`), and from it the moments of a whole session
(`Session.moments`). What is in the list is a moment, and nothing else is (`mem_moments_iff`): a
moment can be found, and all of them can be gone through, by running the session.
-/

namespace Lox

open Eval

section
variable (s : Setting) (n : Nat)

/-- The tasks that a task begins with fuel `n` left. -/
def Task.begins : Task → Machine → List (Task × Machine)
  | .evaluate (.group e), m | .evaluate (.unary _ _ e), m | .evaluate (.assign _ e), m
  | .evaluate (.get e _), m => [(.evaluate e, m)]
  | .evaluate (.binary _ _ l r), m =>
    (.evaluate l, m) :: match Eval.evaluate s n l m with
      | .ok _ m' => [(.evaluate r, m')]
      | .error _ _ => []
  | .evaluate (.logical op _ l r), m =>
    (.evaluate l, m) :: match Eval.evaluate s n l m with
      | .ok a m' => if decides op a then [] else [(.evaluate r, m')]
      | .error _ _ => []
  | .evaluate (.call callee paren args), m =>
    (.evaluate callee, m) :: match Eval.evaluate s n callee m with
      | .ok f m₁ =>
        (.evaluateAll args, m₁) :: match Eval.evaluateAll s n args m₁ with
          | .ok vs m₂ =>
            match callable? s m₂.heap f with
            | some c =>
              if vs.length = c.arity then [(.apply f vs, m₂.enter s ⟨c.name, paren.line⟩)] else []
            | none => []
          | .error _ _ => []
      | .error _ _ => []
  | .evaluate (.set object _ value), m =>
    (.evaluate object, m) :: match Eval.evaluate s n object m with
      | .ok (.object _) m' => [(.evaluate value, m')]
      | _ => []
  | .evaluateAll (e :: es), m =>
    (.evaluate e, m) :: match Eval.evaluate s n e m with
      | .ok _ m' => [(.evaluateAll es, m')]
      | .error _ _ => []
  | .apply (.function f) args, m => [(.runFunction f args, m)]
  | .apply (.cls c) args, m =>
    match (m.withInstance c).heap.initializer? c with
    | some init =>
      [(.runFunction ((m.withInstance c).heap.bindMethod init m.heap.instances.size).1 args,
        (m.withInstance c).withBound init m.heap.instances.size)]
    | none => []
  | .runFunction f args, m =>
    match m.heap.functions[f]? with
    | some closure => [(.executeAll closure.decl.body, m.inBody closure args)]
    | none => []
  | .execute (.expression e), m | .execute (.print e), m | .execute (.var _ (some e)), m
  | .execute (.ret _ (some e)), m => [(.evaluate e, m)]
  | .execute (.block body), m => [(.executeAll body, m.inBlock)]
  | .execute (.ifThen test yes), m =>
    (.evaluate test, m) :: match Eval.evaluate s n test m with
      | .ok v m' => if v.truthy then [(.execute yes, m')] else []
      | .error _ _ => []
  | .execute (.ifElse test yes no), m =>
    (.evaluate test, m) :: match Eval.evaluate s n test m with
      | .ok v m' => [(.execute (if v.truthy then yes else no), m')]
      | .error _ _ => []
  | .execute (.loop test body), m =>
    (.evaluate test, m) :: match Eval.evaluate s n test m with
      | .ok v m₁ =>
        if v.truthy then
          (.execute body, m₁) :: match Eval.execute s n body m₁ with
            | .ok .completed m₂ => [(.execute (.loop test body), m₂)]
            | _ => []
        else []
      | .error _ _ => []
  | .executeAll (stmt :: stmts), m =>
    (.execute stmt, m) :: match Eval.execute s n stmt m with
      | .ok .completed m' => [(.executeAll stmts, m')]
      | _ => []
  | _, _ => []

/-- What the evaluation of an expression is listed to begin, it begins. -/
theorem calls_of_mem_begins_evaluate {e : Expr} {task' : Task} {m m' : Machine}
    (h : (task', m') ∈ Task.begins s n (.evaluate e) m) : Calls s n (.evaluate e) m task' m' := by
  cases e with
  | literal c | name ref | thisRef ref | superRef ref method => cases h
  | group inner => cases List.mem_singleton.1 h; exact .group
  | unary op token right => cases List.mem_singleton.1 h; exact .operand
  | assign ref value => cases List.mem_singleton.1 h; exact .assigned
  | get object property => cases List.mem_singleton.1 h; exact .getObject
  | binary op token l r =>
    rcases List.mem_cons.1 h with h | h
    · cases h; exact .left
    split at h
    · rename_i hl
      cases List.mem_singleton.1 h
      exact .right hl
    · cases h
  | logical op token l r =>
    rcases List.mem_cons.1 h with h | h
    · cases h; exact .test
    split at h
    · rename_i hl
      split at h
      · cases h
      · rename_i hd
        cases List.mem_singleton.1 h
        exact .undecided hl (by simpa using hd)
    · cases h
  | call callee paren args =>
    rcases List.mem_cons.1 h with h | h
    · cases h; exact .callee
    split at h
    · rename_i hf
      rcases List.mem_cons.1 h with h | h
      · cases h; exact .arguments hf
      split at h
      · rename_i hvs
        split at h
        · rename_i hc
          split at h
          · rename_i hl
            cases List.mem_singleton.1 h
            exact .apply hf hvs hc hl
          · cases h
        · cases h
      · cases h
    · cases h
  | set object property value =>
    rcases List.mem_cons.1 h with h | h
    · cases h; exact .setObject
    split at h
    · rename_i ho
      cases List.mem_singleton.1 h
      exact .setValue ho
    · cases h

/-- What a call of a value is listed to begin, it begins. -/
theorem calls_of_mem_begins_apply {callee : Value} {args : List Value} {task' : Task}
    {m m' : Machine} (h : (task', m') ∈ Task.begins s n (.apply callee args) m) :
    Calls s n (.apply callee args) m task' m' := by
  cases callee with
  | function f => cases List.mem_singleton.1 h; exact .function
  | cls c =>
    simp only [Task.begins] at h
    split at h
    · rename_i hi
      cases List.mem_singleton.1 h
      exact .initializer hi
    · cases h
  | nil | bool b | number x | string text | native i | object o => cases h

/-- What the execution of a statement is listed to begin, it begins. -/
theorem calls_of_mem_begins_execute {stmt : Stmt} {task' : Task} {m m' : Machine}
    (h : (task', m') ∈ Task.begins s n (.execute stmt) m) : Calls s n (.execute stmt) m task' m' := by
  cases stmt with
  | expression e => cases List.mem_singleton.1 h; exact .expression
  | print e => cases List.mem_singleton.1 h; exact .print
  | block body => cases List.mem_singleton.1 h; exact .block
  | var name init =>
    cases init with
    | none => cases h
    | some e => cases List.mem_singleton.1 h; exact .init
  | ret keyword value =>
    cases value with
    | none => cases h
    | some e => cases List.mem_singleton.1 h; exact .returned
  | ifThen test yes =>
    rcases List.mem_cons.1 h with h | h
    · cases h; exact .thenTest
    split at h
    · rename_i hv
      split at h
      · rename_i ht
        cases List.mem_singleton.1 h
        exact .thenYes hv ht
      · cases h
    · cases h
  | ifElse test yes no =>
    rcases List.mem_cons.1 h with h | h
    · cases h; exact .elseTest
    split at h
    · rename_i v _ hv
      cases List.mem_singleton.1 h
      cases ht : v.truthy with
      | true => exact .elseYes hv ht
      | false => exact .elseNo hv ht
    · cases h
  | loop test body =>
    rcases List.mem_cons.1 h with h | h
    · cases h; exact .loopTest
    split at h
    · rename_i hv
      split at h
      · rename_i ht
        rcases List.mem_cons.1 h with h | h
        · cases h; exact .loopBody hv ht
        split at h
        · rename_i hb
          cases List.mem_singleton.1 h
          exact .loopAgain hv ht hb
        · cases h
      · cases h
    · cases h
  | function decl | classDecl name superclass methods => cases h

/-- What a task is listed to begin, it begins. -/
theorem calls_of_mem_begins {task task' : Task} {m m' : Machine}
    (h : (task', m') ∈ task.begins s n m) : Calls s n task m task' m' := by
  cases task with
  | evaluate e => exact calls_of_mem_begins_evaluate s n h
  | execute stmt => exact calls_of_mem_begins_execute s n h
  | apply callee args => exact calls_of_mem_begins_apply s n h
  | evaluateAll es =>
    cases es with
    | nil => cases h
    | cons e es =>
      rcases List.mem_cons.1 h with h | h
      · cases h; exact .head
      split at h
      · rename_i hv
        cases List.mem_singleton.1 h
        exact .tail hv
      · cases h
  | runFunction f args =>
    simp only [Task.begins] at h
    split at h
    · rename_i hc
      cases List.mem_singleton.1 h
      exact .body hc
    · cases h
  | executeAll stmts =>
    cases stmts with
    | nil => cases h
    | cons stmt stmts =>
      rcases List.mem_cons.1 h with h | h
      · cases h; exact .first
      split at h
      · rename_i hs
        cases List.mem_singleton.1 h
        exact .rest hs
      · cases h

/-- What a task begins is listed. -/
theorem mem_begins_of_calls {task task' : Task} {m m' : Machine} (h : Calls s n task m task' m') :
    (task', m') ∈ task.begins s n m := by
  cases h with
  | right h | arguments h | setValue h | tail h | initializer h | body h | rest h =>
    simp [Task.begins, h]
  | undecided h ht | thenYes h ht | elseYes h ht | elseNo h ht | loopBody h ht =>
    simp [Task.begins, h, ht]
  | loopAgain hv ht hb => simp [Task.begins, hv, ht, hb]
  | apply hf hvs hc hl => simp [Task.begins, hf, hvs, hc, hl]
  | _ => simp [Task.begins]

end

/-- The expression that the task is to evaluate. -/
def Task.expression? : Task → Option Expr
  | .evaluate e => some e
  | .evaluateAll _ | .apply .. | .runFunction .. | .execute _ | .executeAll _ => none

theorem Task.expression?_eq_some {task : Task} {e : Expr} :
    task.expression? = some e ↔ task = .evaluate e := by
  cases task <;> simp [expression?]

section
variable (s : Setting)

/-- The tasks that a task begins, directly or through others, itself included. -/
def Task.visits : Nat → Task → Machine → List (Nat × Task × Machine)
  | 0, task, m => [(0, task, m)]
  | n + 1, task, m => (n + 1, task, m) :: (task.begins s n m).flatMap fun b => visits n b.1 b.2

theorem visits_of_mem : ∀ {n : Nat} {task : Task} {m : Machine} {k : Nat} {task' : Task}
    {m' : Machine}, (k, task', m') ∈ task.visits s n m → Visits s n task m k task' m'
  | 0, task, m, k, task', m', h => by
    cases List.mem_singleton.1 h
    exact .here
  | n + 1, task, m, k, task', m', h => by
    rcases List.mem_cons.1 h with h | h
    · cases h
      exact .here
    · obtain ⟨⟨task₁, m₁⟩, hb, hv⟩ := List.mem_flatMap.1 h
      exact .call (calls_of_mem_begins s n hb) (visits_of_mem hv)

variable {s}

theorem mem_of_visits {n k : Nat} {task task' : Task} {m m' : Machine}
    (h : Visits s n task m k task' m') : (k, task', m') ∈ task.visits s n m := by
  induction h with
  | @here n => cases n <;> exact List.mem_cons_self
  | call hc _ ih =>
    exact List.mem_cons_of_mem _ (List.mem_flatMap.2 ⟨_, mem_begins_of_calls s _ hc, ih⟩)

theorem Visits.snoc {n k : Nat} {task task' task'' : Task} {m m' m'' : Machine}
    (h : Visits s n task m (k + 1) task' m') (hc : Calls s k task' m' task'' m'') :
    Visits s n task m k task'' m'' := by
  generalize hk : k + 1 = j at h
  induction h with
  | here =>
    cases hk
    exact .call hc .here
  | call hc' _ ih => exact .call hc' (ih hc hk)

variable (s)

namespace Session

/-- The moments of statements that are executed one after the other. -/
def statementMoments (fuel : Nat) : List Stmt → Machine → List (Nat × Task × Machine)
  | [], _ => []
  | stmt :: rest, m =>
    Task.visits s fuel (.execute stmt) m ++
      match Eval.execute s fuel stmt m with
      | .ok _ m' => statementMoments fuel rest m'
      | .error _ _ => []

theorem executeEach_append {fuel : Nat} {stmt : Stmt} {c : Completion} {before : List Stmt}
    {m₀ m m' : Machine} (h : executeEach s fuel before m₀ = .ok () m)
    (hs : execute s fuel stmt m = .ok c m') : executeEach s fuel (before ++ [stmt]) m₀ = .ok () m' :=
  (executeEach_append_of_ok [stmt] h).trans (bind_ok hs)

theorem moment_of_mem_statementMoments {clock : Clock} {runs earlier later : List (Nat × String)}
    {fuel : Nat} {source : String} (hr : runs = earlier ++ (fuel, source) :: later)
    (ha : (Program.compile source).Accepted) {n : Nat} {task : Task} {m' : Machine} :
    ∀ (stmts before : List Stmt) {m : Machine}, (Program.compile source).bound = before ++ stmts →
      executeEach s fuel before (begun s source (after s clock earlier)) = .ok () m →
      (n, task, m') ∈ statementMoments s fuel stmts m → Moment s clock runs n task m'
  | [], _, _, _, _, h => by cases h
  | stmt :: rest, before, m, hb, hx, h => by
    have hm := Moment.statement hr ha hb hx
    rcases List.mem_append.1 h with h | h
    · exact hm.visits (visits_of_mem s h)
    · split at h
      · rename_i c m₁ hs
        exact moment_of_mem_statementMoments hr ha rest (before ++ [stmt]) (by rw [hb]; simp)
          (executeEach_append s hx hs) h
      · cases h

/-- The moments of a session that has run `earlier` and goes on with the sources given. -/
def momentsFrom (clock : Clock) : List (Nat × String) → List (Nat × String) →
    List (Nat × Task × Machine)
  | _, [] => []
  | earlier, (fuel, source) :: later =>
    (if (Program.compile source).diagnostics = [] ∧ (Program.compile source).violations = [] then
      statementMoments s fuel (Program.compile source).bound
        (begun s source (after s clock earlier))
    else []) ++ momentsFrom clock (earlier ++ [(fuel, source)]) later

/-- The moments of a session. -/
def moments (clock : Clock) (runs : List (Nat × String)) : List (Nat × Task × Machine) :=
  momentsFrom s clock [] runs

theorem moment_of_mem_momentsFrom {clock : Clock} {n : Nat} {task : Task} {m : Machine} :
    ∀ {earlier later : List (Nat × String)}, (n, task, m) ∈ momentsFrom s clock earlier later →
      Moment s clock (earlier ++ later) n task m
  | _, [], h => by cases h
  | earlier, (fuel, source) :: later, h => by
    rcases List.mem_append.1 h with h | h
    · split at h
      · rename_i ha
        exact moment_of_mem_statementMoments s rfl ⟨ha.1, ha.2⟩ _ [] rfl rfl h
      · cases h
    · have hm := moment_of_mem_momentsFrom h
      rwa [List.append_assoc] at hm

/-- Every moment of a session is visited by the execution of a top-level statement. -/
theorem Moment.exists_statement {clock : Clock} {runs : List (Nat × String)} {n : Nat} {task : Task}
    {m : Machine} (hm : Moment s clock runs n task m) :
    ∃ earlier later fuel source before stmt rest m₀, runs = earlier ++ (fuel, source) :: later ∧
      (Program.compile source).Accepted ∧
      (Program.compile source).bound = before ++ stmt :: rest ∧
      executeEach s fuel before (begun s source (after s clock earlier)) = .ok () m₀ ∧
      Visits s fuel (.execute stmt) m₀ n task m := by
  induction hm with
  | statement hr ha hb hx => exact ⟨_, _, _, _, _, _, _, _, hr, ha, hb, hx, .here⟩
  | call _ hc ih =>
    obtain ⟨earlier, later, fuel, source, before, stmt, rest, m₀, hr, ha, hb, hx, hv⟩ := ih
    exact ⟨earlier, later, fuel, source, before, stmt, rest, m₀, hr, ha, hb, hx, hv.snoc hc⟩

theorem mem_statementMoments {fuel : Nat} {stmt : Stmt} {rest : List Stmt} {m₀ : Machine}
    {x : Nat × Task × Machine} (hx : x ∈ Task.visits s fuel (.execute stmt) m₀) :
    ∀ {before : List Stmt} {m : Machine}, executeEach s fuel before m = .ok () m₀ →
      x ∈ statementMoments s fuel (before ++ stmt :: rest) m
  | [], _, h => by
    cases h
    exact List.mem_append_left _ hx
  | first :: before, m, h => by
    obtain ⟨c, m₁, h1, h2⟩ := bind_eq_ok h
    refine List.mem_append_right _ ?_
    simp only [h1]
    exact mem_statementMoments hx h2

theorem mem_momentsFrom {clock : Clock} {fuel : Nat} {source : String}
    {later : List (Nat × String)} (ha : (Program.compile source).Accepted)
    {x : Nat × Task × Machine} : ∀ {done earlier : List (Nat × String)},
      x ∈ statementMoments s fuel (Program.compile source).bound
        (begun s source (after s clock (done ++ earlier))) →
      x ∈ momentsFrom s clock done (earlier ++ (fuel, source) :: later)
  | done, [], h => by
    rw [List.append_nil] at h
    refine List.mem_append_left _ ?_
    rwa [if_pos ⟨ha.diagnostics, ha.violations⟩]
  | done, r :: earlier, h => by
    refine List.mem_append_right _ (mem_momentsFrom ha ?_)
    rwa [List.append_assoc]

/-- **What is listed as a moment of a session is one, and every moment is listed.** -/
theorem mem_moments_iff {clock : Clock} {runs : List (Nat × String)} {n : Nat} {task : Task}
    {m : Machine} : (n, task, m) ∈ moments s clock runs ↔ Moment s clock runs n task m := by
  refine ⟨moment_of_mem_momentsFrom s, fun hm => ?_⟩
  obtain ⟨earlier, later, fuel, source, before, stmt, rest, m₀, rfl, ha, hb, hx, hv⟩ :=
    hm.exists_statement
  refine mem_momentsFrom s ha ?_
  rw [hb]
  exact mem_statementMoments s (mem_of_visits hv) hx

theorem moment_of_mem {clock : Clock} {runs : List (Nat × String)} {n : Nat} {task : Task}
    {m : Machine} (h : (n, task, m) ∈ moments s clock runs) : Moment s clock runs n task m :=
  (mem_moments_iff s).1 h

/-- The expressions that a session evaluates. -/
def evaluations (clock : Clock) (runs : List (Nat × String)) : List (Nat × Expr × Machine) :=
  (moments s clock runs).filterMap fun (n, task, m) => task.expression?.map (n, ·, m)

theorem moment_of_mem_evaluations {clock : Clock} {runs : List (Nat × String)} {n : Nat} {e : Expr}
    {m : Machine} (h : (n, e, m) ∈ evaluations s clock runs) :
    Moment s clock runs n (.evaluate e) m := by
  obtain ⟨⟨n, task, m⟩, hmem, he⟩ := List.mem_filterMap.1 h
  obtain ⟨e, htask, heq⟩ := Option.map_eq_some_iff.1 he
  cases heq
  rw [Task.expression?_eq_some] at htask
  exact moment_of_mem s (htask ▸ hmem)

end Session

end

end Lox

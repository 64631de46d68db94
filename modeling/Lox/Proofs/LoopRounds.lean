import Lox.Proofs.Activation
import Lox.Proofs.Fuel
import Lox.Proofs.LoopHeaders

/-!
# How loops with a header run

A loop with a header runs its clauses in an order (`Clauses.Runs`): the first clause once, and then
rounds, each with a test, the body and the update. A round whose body completes has one update, right
after the body; a round whose body does not complete has none and is the last one.

Main statement: `Header.loops_are_expansions`.
-/

namespace Lox

open Exec Eval

/-! ## Statements, put together -/

namespace Exec.Result

/-- The statement completed. -/
def Completed (r : Result Completion) : Prop := ∃ m, r = .ok .completed m

/-- The result of an expression as a statement. -/
def ofValue : Result Value → Result Completion
  | .ok _ m => .ok .completed m
  | .error i m => .error i m

theorem settled_ofValue {r : Result Value} : Settled (ofValue r) ↔ Settled r := by
  cases r with
  | ok v m => exact Iff.rfl
  | error i m => cases i <;> exact Iff.rfl

end Exec.Result

section
variable {s : Setting} {m : Machine} {r : Result Completion}

theorem comes_expression {e : Expr} :
    Comes (execute s · (.expression e)) m r ↔
      ∃ r', Comes (evaluate s · e) m r' ∧ r = Result.ofValue r' := by
  have hrun : ∀ n, execute s (n + 1) (.expression e) m = Result.ofValue (evaluate s n e m) := by
    intro n
    rw [execute]
    cases h : evaluate s n e m with
    | ok v m₁ => rw [bind_ok h]; rfl
    | error i m₁ => rw [bind_error h]; rfl
  rw [← comes_succ (growing_execute s (.expression e))]
  simp only [Comes, hrun]
  constructor
  · rintro ⟨hs, n, rfl⟩
    exact ⟨_, ⟨Result.settled_ofValue.1 hs, n, rfl⟩, rfl⟩
  · rintro ⟨_, ⟨hs, n, rfl⟩, rfl⟩
    exact ⟨Result.settled_ofValue.2 hs, n, rfl⟩

theorem comes_block {body : List Stmt} :
    Comes (execute s · (.block body)) m r ↔
      ∃ r', Comes (executeAll s · body) m.inBlock r' ∧ r = Result.back m.frame r' := by
  have hrun : ∀ n, execute s (n + 1) (.block body) m =
      inFrame m.inBlock.frame (executeAll s n body) { m with heap := m.inBlock.heap } := by
    intro n
    rw [execute]
    rfl
  rw [← comes_succ (growing_execute s (.block body))]
  simp only [Comes, hrun]
  exact comes_inFrame

/-- What goes on only after a statement that completes. -/
theorem comes_andThen {x y : Nat → Exec Completion} (hx : Growing x) (hy : Growing y) :
    Comes (fun n => x n >>= fun c =>
        match c with
        | .returned v => pure (.returned v)
        | .completed => y n) m r ↔
      (∃ m₁, Comes x m (.ok .completed m₁) ∧ Comes y m₁ r) ∨ (Comes x m r ∧ ¬ r.Completed) := by
  have hpure : ∀ (v : Value) (m₁ : Machine) (r : Result Completion),
      Comes (fun _ => (pure (.returned v) : Exec Completion)) m₁ r ↔ .ok (.returned v) m₁ = r :=
    fun v m₁ r => comes_const trivial
  rw [comes_bind hx fun c => by
    cases c with
    | returned v => exact fun _ => extends_refl _
    | completed => exact hy]
  constructor
  · rintro (⟨c, m₁, h, h'⟩ | ⟨i, m₁, h, rfl⟩)
    · cases c with
      | completed => exact .inl ⟨m₁, h, h'⟩
      | returned v =>
        obtain rfl := (hpure v m₁ r).1 h'
        exact .inr ⟨h, fun ⟨_, he⟩ => by cases he⟩
    · exact .inr ⟨h, fun ⟨_, he⟩ => by cases he⟩
  · rintro (⟨m₁, h, h'⟩ | ⟨h, hr⟩)
    · exact .inl ⟨.completed, m₁, h, h'⟩
    · cases r with
      | ok c m₁ =>
        cases c with
        | completed => exact absurd ⟨m₁, rfl⟩ hr
        | returned v => exact .inl ⟨.returned v, m₁, h, (hpure v m₁ _).2 rfl⟩
      | error i m₁ => exact .inr ⟨i, m₁, h, rfl⟩

theorem comes_cons {stmt : Stmt} {stmts : List Stmt} :
    Comes (executeAll s · (stmt :: stmts)) m r ↔
      (∃ m₁, Comes (execute s · stmt) m (.ok .completed m₁) ∧ Comes (executeAll s · stmts) m₁ r) ∨
        (Comes (execute s · stmt) m r ∧ ¬ r.Completed) := by
  rw [← comes_succ (growing_executeAll s (stmt :: stmts))]
  simp only [executeAll]
  exact comes_andThen (growing_execute s stmt) (growing_executeAll s stmts)

theorem comes_nil : Comes (executeAll s · []) m r ↔ .ok .completed m = r := by
  rw [← comes_succ (growing_executeAll s [])]
  simp only [executeAll]
  exact comes_const trivial

/-- One statement alone. -/
theorem comes_single {stmt : Stmt} :
    Comes (executeAll s · [stmt]) m r ↔ Comes (execute s · stmt) m r := by
  rw [comes_cons]
  constructor
  · rintro (⟨m₁, h, h'⟩ | ⟨h, -⟩)
    · obtain rfl := comes_nil.1 h'
      exact h
    · exact h
  · intro h
    by_cases hr : r.Completed
    · obtain ⟨m₁, rfl⟩ := hr
      exact .inl ⟨m₁, h, comes_nil.2 rfl⟩
    · exact .inr ⟨h, hr⟩

/-- A block of two statements. -/
theorem comes_pair {first second : Stmt} :
    Comes (execute s · (.block [first, second])) m r ↔
      ∃ r', ((∃ m₁, Comes (execute s · first) m.inBlock (.ok .completed m₁) ∧
          Comes (execute s · second) m₁ r') ∨
        (Comes (execute s · first) m.inBlock r' ∧ ¬ r'.Completed)) ∧ r = Result.back m.frame r' := by
  rw [comes_block]
  refine exists_congr fun r' => and_congr_left fun _ => ?_
  rw [comes_cons]
  simp only [comes_single]

/-- A plain loop: its test, its body if the test is true, and the loop again if that completes. -/
theorem comes_loop {test : Expr} {body : Stmt} :
    Comes (execute s · (.loop test body)) m r ↔
      (∃ v m₁, Comes (evaluate s · test) m (.ok v m₁) ∧
        if v.truthy then
          (∃ m₂, Comes (execute s · body) m₁ (.ok .completed m₂) ∧
            Comes (execute s · (.loop test body)) m₂ r) ∨
          (Comes (execute s · body) m₁ r ∧ ¬ r.Completed)
        else r = .ok .completed m₁) ∨
      ∃ i m₁, Comes (evaluate s · test) m (.error i m₁) ∧ r = .error i m₁ := by
  have hrest : ∀ v : Value, Growing fun n =>
      if v.truthy then
        execute s n body >>= fun c =>
          match c with
          | .returned v => pure (.returned v)
          | .completed => execute s n (.loop test body)
      else pure .completed := by
    intro v n
    split
    · refine extends_bind (growing_execute s body n) fun c => ?_
      cases c with
      | returned v => exact extends_refl _
      | completed => exact growing_execute s (.loop test body) n
    · exact extends_refl _
  rw [← comes_succ (growing_execute s (.loop test body))]
  simp only [execute]
  refine (comes_bind (growing_evaluate s test) hrest).trans (or_congr_left ?_)
  refine exists_congr fun v => exists_congr fun m₁ => and_congr_right fun _ => ?_
  split
  · exact comes_andThen (growing_execute s body) (growing_execute s (.loop test body))
  · exact (comes_const (y := (pure .completed : Exec Completion)) trivial).trans eq_comm

end

/-! ## Clauses in their order -/

/-- The parts of a loop with a header. -/
inductive Clause where
  | init
  | test
  | body
  | update
deriving DecidableEq, Repr

namespace Clauses

section
variable (s : Setting) (c : Clauses)

/-- What a round does after its test: with an update, the body and the update are in a block of
their own, and the update follows just the body that completes. -/
inductive Round : Machine → List Clause → Result Completion → Prop
  | plain {m r} (hu : c.update = none) (hb : Comes (execute s · c.body) m r) : Round m [.body] r
  | stops {u m r} (hu : c.update = some u) (hb : Comes (execute s · c.body) m.inBlock r)
      (hr : ¬ r.Completed) : Round m [.body] (r.back m.frame)
  | updates {u m m₁ r} (hu : c.update = some u)
      (hb : Comes (execute s · c.body) m.inBlock (.ok .completed m₁))
      (hr : Comes (evaluate s · u) m₁ r) : Round m [.body, .update] ((Result.ofValue r).back m.frame)

/-- The rounds of a loop: each begins with the test, and only a round that completes has a next
one. -/
inductive Rounds : Machine → List Clause → Result Completion → Prop
  | testFails {m i m₁} (ht : Comes (evaluate s · c.condition) m (.error i m₁)) :
      Rounds m [.test] (.error i m₁)
  | testFalse {m v m₁} (ht : Comes (evaluate s · c.condition) m (.ok v m₁))
      (hv : v.truthy = false) : Rounds m [.test] (.ok .completed m₁)
  | last {m v m₁ cs r} (ht : Comes (evaluate s · c.condition) m (.ok v m₁)) (hv : v.truthy = true)
      (hr : Round s c m₁ cs r) (hc : ¬ r.Completed) : Rounds m (.test :: cs) r
  | next {m v m₁ cs m₂ cs' r} (ht : Comes (evaluate s · c.condition) m (.ok v m₁))
      (hv : v.truthy = true) (hr : Round s c m₁ cs (.ok .completed m₂)) (h : Rounds m₂ cs' r) :
      Rounds m (.test :: cs ++ cs') r

/-- The run of a loop with a header: the first clause once, in a block around the rounds. -/
inductive Runs : Machine → List Clause → Result Completion → Prop
  | plain {m cs r} (hi : c.init = none) (h : Rounds s c m cs r) : Runs m cs r
  | stops {stmt m r} (hi : c.init = some stmt) (h : Comes (execute s · stmt) m.inBlock r)
      (hr : ¬ r.Completed) : Runs m [.init] (r.back m.frame)
  | goesOn {stmt m m₁ cs r} (hi : c.init = some stmt)
      (h : Comes (execute s · stmt) m.inBlock (.ok .completed m₁)) (hr : Rounds s c m₁ cs r) :
      Runs m (.init :: cs) (r.back m.frame)

end

section
variable {s : Setting} {c : Clauses} {m : Machine} {r : Result Completion}

theorem comes_round : Comes (execute s · c.round) m r ↔ ∃ cs, Round s c m cs r := by
  unfold round
  cases hu : c.update with
  | none =>
    constructor
    · intro h
      exact ⟨_, .plain hu h⟩
    · rintro ⟨cs, h⟩
      cases h with
      | plain _ hb => exact hb
      | stops hu' | updates hu' => rw [hu] at hu'; cases hu'
  | some u =>
    simp only [comes_pair, comes_expression]
    constructor
    · rintro ⟨_, ⟨m₁, hb, v, hv, rfl⟩ | ⟨hb, hr⟩, rfl⟩
      · exact ⟨_, .updates hu hb hv⟩
      · exact ⟨_, .stops hu hb hr⟩
    · rintro ⟨cs, h⟩
      cases h with
      | plain hu' => rw [hu] at hu'; cases hu'
      | stops _ hb hr => exact ⟨_, .inr ⟨hb, hr⟩, rfl⟩
      | updates hu' hb hv =>
        rw [hu] at hu'
        cases hu'
        exact ⟨_, .inl ⟨_, hb, _, hv, rfl⟩, rfl⟩

/-- What the plain loop comes to with some fuel, its rounds come to. -/
theorem rounds_of_execute : ∀ {n : Nat} {m : Machine} {r : Result Completion}, r.Settled →
    execute s n c.rounds m = r → ∃ cs, Rounds s c m cs r
  | 0, _, _, hs, he => by
    subst he
    exact hs.elim
  | n + 1, m, r, hs, he => by
    rw [rounds, execute] at he
    cases ht : evaluate s n c.condition m with
    | error i m₁ =>
      rw [bind_error ht] at he
      subst he
      exact ⟨_, .testFails ⟨Result.settled_error hs, n, ht⟩⟩
    | ok v m₁ =>
      have htest : Comes (evaluate s · c.condition) m (.ok v m₁) := ⟨trivial, n, ht⟩
      rw [bind_ok ht] at he
      cases hv : v.truthy with
      | false =>
        rw [if_neg (by simp [hv])] at he
        subst he
        exact ⟨_, .testFalse htest hv⟩
      | true =>
        rw [if_pos hv] at he
        cases hb : execute s n c.round m₁ with
        | error i m₂ =>
          rw [bind_error hb] at he
          subst he
          obtain ⟨cs, hround⟩ := comes_round.1 ⟨hs, n, hb⟩
          exact ⟨_, .last htest hv hround (by rintro ⟨_, h⟩; cases h)⟩
        | ok ending m₂ =>
          rw [bind_ok hb] at he
          have hround : Comes (execute s · c.round) m₁ (.ok ending m₂) := ⟨trivial, n, hb⟩
          obtain ⟨cs, hround⟩ := comes_round.1 hround
          cases ending with
          | returned w =>
            subst he
            exact ⟨_, .last htest hv hround (by rintro ⟨_, h⟩; cases h)⟩
          | completed =>
            obtain ⟨cs', hrest⟩ := rounds_of_execute hs he
            exact ⟨_, .next htest hv hround hrest⟩

theorem comes_rounds : Comes (execute s · c.rounds) m r ↔ ∃ cs, Rounds s c m cs r := by
  constructor
  · rintro ⟨hs, n, he⟩
    exact rounds_of_execute hs he
  · rintro ⟨cs, h⟩
    induction h with
    | testFails ht => exact comes_loop.2 (.inr ⟨_, _, ht, rfl⟩)
    | testFalse ht hv => exact comes_loop.2 (.inl ⟨_, _, ht, by rw [hv]; rfl⟩)
    | last ht hv hr hc =>
      refine comes_loop.2 (.inl ⟨_, _, ht, ?_⟩)
      rw [if_pos hv]
      exact .inr ⟨comes_round.2 ⟨_, hr⟩, hc⟩
    | next ht hv hr _ ih =>
      refine comes_loop.2 (.inl ⟨_, _, ht, ?_⟩)
      rw [if_pos hv]
      exact .inl ⟨_, comes_round.2 ⟨_, hr⟩, ih⟩

/-- **A loop with a header runs its clauses.** -/
theorem comes_runs : Comes (execute s · c.loop) m r ↔ ∃ cs, Runs s c m cs r := by
  rw [loop_eq]
  cases hi : c.init with
  | none =>
    constructor
    · intro h
      obtain ⟨cs, h⟩ := comes_rounds.1 h
      exact ⟨cs, .plain hi h⟩
    · rintro ⟨cs, h⟩
      cases h with
      | plain _ h => exact comes_rounds.2 ⟨cs, h⟩
      | stops hi' | goesOn hi' => rw [hi] at hi'; cases hi'
  | some stmt =>
    rw [comes_pair]
    constructor
    · rintro ⟨r', ⟨m₁, h, hr⟩ | ⟨h, hr⟩, rfl⟩
      · obtain ⟨cs, hr⟩ := comes_rounds.1 hr
        exact ⟨_, .goesOn hi h hr⟩
      · exact ⟨_, .stops hi h hr⟩
    · rintro ⟨cs, h⟩
      cases h with
      | plain hi' => rw [hi] at hi'; cases hi'
      | stops hi' h hr =>
        rw [hi] at hi'
        cases hi'
        exact ⟨_, .inr ⟨h, hr⟩, rfl⟩
      | goesOn hi' h hr =>
        rw [hi] at hi'
        cases hi'
        exact ⟨_, .inl ⟨_, h, comes_rounds.2 ⟨_, hr⟩⟩, rfl⟩

end

/-! ## What the order says -/

/-- The clauses of a round that completes. -/
def cycle (c : Clauses) : List Clause :=
  if c.update.isSome then [.test, .body, .update] else [.test, .body]

/-- The clauses of rounds: those that complete, and a last one, which does not go to its end unless
its test is false. -/
def Ordered (c : Clauses) (cs : List Clause) (r : Result Completion) : Prop :=
  ∃ (k : Nat) (last : List Clause), cs = (List.replicate k c.cycle).flatten ++ last ∧
    (last = [.test] ∨ last = [.test, .body] ∧ ¬ r.Completed ∨
      last = [.test, .body, .update] ∧ c.update.isSome = true ∧ ¬ r.Completed)

section
variable {s : Setting} {c : Clauses} {m : Machine} {cs : List Clause} {r : Result Completion}

theorem completed_back {frame : Id} :
    Result.Completed (Result.back frame r) ↔ r.Completed := by
  constructor
  · rintro ⟨m, he⟩
    cases r with
    | ok ending m' =>
      injection he with he
      exact ⟨m', by rw [he]⟩
    | error i m' => cases he
  · rintro ⟨m, rfl⟩
    exact ⟨_, rfl⟩

/-- A round that completes goes through all its clauses. -/
theorem Round.cycle_eq (h : Round s c m cs r) (hr : r.Completed) : .test :: cs = c.cycle := by
  cases h with
  | plain hu => rw [cycle, hu]; rfl
  | stops _ _ hr' => exact absurd (completed_back.1 hr) hr'
  | updates hu => rw [cycle, hu]; rfl

theorem Round.order (h : Round s c m cs r) :
    cs = [.body] ∨ cs = [.body, .update] ∧ c.update.isSome = true := by
  cases h with
  | plain | stops => exact .inl rfl
  | updates hu => exact .inr ⟨rfl, by rw [hu]; rfl⟩

theorem Rounds.ordered (h : Rounds s c m cs r) : c.Ordered cs r := by
  induction h with
  | testFails | testFalse => exact ⟨0, [.test], rfl, .inl rfl⟩
  | last _ _ hr hc =>
    refine ⟨0, _, rfl, .inr ?_⟩
    rcases hr.order with rfl | ⟨rfl, hu⟩
    · exact .inl ⟨rfl, hc⟩
    · exact .inr ⟨rfl, hu, hc⟩
  | next _ _ hr _ ih =>
    obtain ⟨k, last, rfl, hlast⟩ := ih
    refine ⟨k + 1, last, ?_, hlast⟩
    rw [hr.cycle_eq ⟨_, rfl⟩, List.replicate_succ, List.flatten_cons, List.append_assoc]

theorem Runs.ordered (h : Runs s c m cs r) :
    (c.init.isSome = true ∧ cs = [.init] ∧ ¬ r.Completed) ∨
      ∃ cs', cs = (if c.init.isSome then [.init] else []) ++ cs' ∧ c.Ordered cs' r := by
  cases h with
  | plain hi h => exact .inr ⟨cs, by rw [hi]; rfl, h.ordered⟩
  | stops hi _ hr => exact .inl ⟨by rw [hi]; rfl, rfl, fun h => hr (completed_back.1 h)⟩
  | @goesOn _ _ _ cs _ hi _ hr =>
    refine .inr ⟨cs, by rw [hi]; rfl, ?_⟩
    simpa only [Ordered, completed_back] using hr.ordered

/-- The machine in which the body of a round begins. -/
def inRound (c : Clauses) (m : Machine) : Machine := if c.update.isSome then m.inBlock else m

/-- A body that completes is followed by the update, and any other ends its round. -/
theorem Round.clauses_of_body (h : Round s c m cs r) {r' : Result Completion}
    (hb : Comes (execute s · c.body) (c.inRound m) r') :
    (r'.Completed → cs = c.cycle.tail) ∧ (¬ r'.Completed → cs = [.body] ∧ ¬ r.Completed) := by
  have hgrow := growing_execute s c.body
  cases h with
  | plain hu hb' =>
    rw [inRound, hu] at hb
    obtain rfl := hb'.unique hgrow hb
    exact ⟨fun _ => by rw [cycle, hu]; rfl, fun hr => ⟨rfl, hr⟩⟩
  | stops hu hb' hr =>
    rw [inRound, hu] at hb
    obtain rfl := hb'.unique hgrow hb
    exact ⟨fun hr' => absurd hr' hr, fun _ => ⟨rfl, fun h => hr (completed_back.1 h)⟩⟩
  | updates hu hb' hv =>
    rw [inRound, hu] at hb
    obtain rfl := hb'.unique hgrow hb
    exact ⟨fun _ => by rw [cycle, hu]; rfl, fun hr => absurd ⟨_, rfl⟩ hr⟩

section
variable {v : Value} {m₁ : Machine} (ht : Comes (evaluate s · c.condition) m (.ok v m₁))
  (hv : v.truthy = true)
include ht hv

/-- A round that does not complete ends the loop. -/
theorem comes_rounds_of_stop (h : Round s c m₁ cs r) (hr : ¬ r.Completed)
    (r' : Result Completion) : Comes (execute s · c.rounds) m r' ↔ r' = r := by
  have hcomes := comes_rounds.2 ⟨_, .last ht hv h hr⟩
  exact ⟨fun h' => h'.unique (growing_execute s c.rounds) hcomes, fun h' => h' ▸ hcomes⟩

/-- After a round that completes, the loop is the same as begun there. -/
theorem comes_rounds_of_round {m₂ : Machine} (h : Round s c m₁ cs (.ok .completed m₂))
    (r' : Result Completion) :
    Comes (execute s · c.rounds) m r' ↔ Comes (execute s · c.rounds) m₂ r' := by
  have hround : Comes (execute s · c.round) m₁ (.ok .completed m₂) := comes_round.2 ⟨_, h⟩
  have hgrow := growing_execute s c.round
  constructor
  · intro h'
    rcases comes_loop.1 h' with ⟨v', m₁', ht', h'⟩ | ⟨i, m₁', ht', -⟩
    · cases ht'.unique (growing_evaluate s c.condition) ht
      rw [if_pos hv] at h'
      rcases h' with ⟨m₂', hb, hrest⟩ | ⟨hb, hr⟩
      · cases hb.unique hgrow hround
        exact hrest
      · exact absurd ⟨_, hb.unique hgrow hround⟩ hr
    · cases ht'.unique (growing_evaluate s c.condition) ht
  · intro h'
    refine comes_loop.2 (.inl ⟨_, _, ht, ?_⟩)
    rw [if_pos hv]
    exact .inl ⟨_, hround, h'⟩

end

end

/-- How a loop with these clauses is executed. -/
structure Executes (s : Setting) (c : Clauses) : Prop where
  /-- It comes to what its clauses come to, run in their order. -/
  runs : ∀ m r, Comes (execute s · c.loop) m r ↔ ∃ cs, Runs s c m cs r
  /-- The first clause is run once, before the rounds. -/
  ordered : ∀ m cs r, Runs s c m cs r →
    (c.init.isSome = true ∧ cs = [.init] ∧ ¬ r.Completed) ∨
      ∃ cs', cs = (if c.init.isSome then [.init] else []) ++ cs' ∧ c.Ordered cs' r
  /-- In a round, a body that completes is followed by one update, and any other by none. -/
  round : ∀ m cs r r', Comes (execute s · c.body) (c.inRound m) r' → Round s c m cs r →
    (r'.Completed → cs = c.cycle.tail) ∧ (¬ r'.Completed → cs = [.body] ∧ ¬ r.Completed)
  /-- A round that does not complete ends the loop. -/
  stops : ∀ m v m₁ cs r, Comes (evaluate s · c.condition) m (.ok v m₁) → v.truthy = true →
    Round s c m₁ cs r → ¬ r.Completed → ∀ r', Comes (execute s · c.rounds) m r' ↔ r' = r
  /-- After a round that completes, the test is next, also in a loop that never ends. -/
  goesOn : ∀ m v m₁ cs m₂, Comes (evaluate s · c.condition) m (.ok v m₁) → v.truthy = true →
    Round s c m₁ cs (.ok .completed m₂) →
    ∀ r', Comes (execute s · c.rounds) m r' ↔ Comes (execute s · c.rounds) m₂ r'

theorem executes (s : Setting) (c : Clauses) : c.Executes s where
  runs _ _ := comes_runs
  ordered _ _ _ h := h.ordered
  round _ _ _ _ hb h := h.clauses_of_body hb
  stops _ _ _ _ _ ht hv h hr := comes_rounds_of_stop ht hv h hr
  goesOn _ _ _ _ _ ht hv h := comes_rounds_of_round ht hv h

end Clauses

open Grammar

/-- **Loops with a header are their expansion.** If the clauses and the body are each understood on
their own, the loop and the same loop written out are parsed without a fault to the same tree, that
of the clauses put together; at other places, to the same tree but for the places. Bound in any
scopes, this tree runs its clauses in their order. -/
theorem Header.loops_are_expansions {h : Header} {c : Clauses} (hp : h.Parses c) :
    (∀ eof, parse h.tokens eof = ⟨[c.loop], []⟩ ∧ parse h.expansion eof = ⟨[c.loop], []⟩) ∧
    (∀ ts ts' eof eof', ts.map Token.bare = h.tokens.map Token.bare →
      ts'.map Token.bare = h.expansion.map Token.bare →
      (parse ts eof).diagnostics = [] ∧ (parse ts' eof').diagnostics = [] ∧
        Stmt.relabelAll .bare (parse ts eof).statements =
          Stmt.relabelAll .bare (parse ts' eof').statements) ∧
    ∀ s σ, c.loop.bind σ = (c.bind σ).loop ∧ (c.bind σ).Executes s := by
  refine ⟨fun eof => ⟨parse_loop hp eof, parse_expansion hp eof⟩, ?_,
    fun s σ => ⟨c.bind_loop σ, Clauses.executes s (c.bind σ)⟩⟩
  intro ts ts' eof eof' hts hts'
  obtain ⟨hd, hstmts⟩ := parse_of_map_bare (parse_loop hp) hts eof
  obtain ⟨hd', hstmts'⟩ := parse_of_map_bare (parse_expansion hp) hts' eof'
  exact ⟨hd, hd', hstmts.trans hstmts'.symm⟩

/-- A loop without a test, with a condition for its body, and its expansion. -/
theorem Header.loops_are_expansions_of_conditional_body :
    let x : Token := ⟨.identifier, "x", 1, 5⟩
    let h : Header := {
      init := some [x, ⟨.equal, "=", 1, 7⟩, ⟨.kwTrue, "true", 1, 9⟩, ⟨.semicolon, ";", 1, 13⟩]
      test := none
      update := some [x, ⟨.equal, "=", 1, 18⟩, ⟨.kwFalse, "false", 1, 20⟩]
      body := [⟨.kwIf, "if", 1, 27⟩, ⟨.leftParen, "(", 1, 30⟩, x, ⟨.rightParen, ")", 1, 32⟩, x,
        ⟨.semicolon, ";", 1, 35⟩] }
    let c : Clauses := {
      init := some (.expression (.assign ⟨x, none⟩ (.literal (.bool true))))
      test := none
      update := some (.assign ⟨x, none⟩ (.literal (.bool false)))
      body := .ifThen (.name ⟨x, none⟩) (.expression (.name ⟨x, none⟩)) }
    h.Parses c ∧ parse h.tokens ⟨.eof, "", 1, 36⟩ = parse h.expansion ⟨.eof, "", 1, 36⟩ ∧
      ∀ s, (c.bind []).Executes s := by
  intro x h c
  have hp : h.Parses c :=
    { init := .some ⟨⟨30, ⟨.eof, "", 1, 36⟩, rfl⟩, rfl⟩
      test := .none
      update := .some ⟨30, ⟨.eof, "", 1, 36⟩, rfl⟩
      body := ⟨30, ⟨.eof, "", 1, 36⟩, rfl⟩ }
  have hboth := (loops_are_expansions hp).1 ⟨.eof, "", 1, 36⟩
  exact ⟨hp, hboth.1.trans hboth.2.symm, fun s => ((loops_are_expansions hp).2.2 s []).2⟩

end Lox

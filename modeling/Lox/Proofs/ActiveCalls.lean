import Lox.Proofs.Restoration

/-!
# Active calls

The tasks that lead from a statement to a task have some call expressions among them that have begun
to apply their callees: the calls that are active there (`Active`), which the machine counts
(`Active.calls`). A fault gets its trace on its way out: each task that it leaves passes it on, and
a call expression adds its call (`Calls.interrupted`). So the trace of a fault is the list of the
calls that were active where it was raised (`Task.traced`), and the depth that is logged with a call
is their number (`Task.logged`).

Main statement: `trace_eq_active_calls`.
-/

namespace Lox

open Heap Exec Eval

/-! ## Paths through the tasks -/

/-- The tasks that a task begins, directly or through others, itself included, with the calls that
are active then: those that were opened on the way, innermost first. -/
inductive Active (s : Setting) : Nat → Task → Machine → List Call → Nat → Task → Machine → Prop
  | here {n task m} : Active s n task m [] n task m
  | call {n task m task' m' calls k task'' m''} (hc : Calls s n task m task' m')
      (ha : Active s n task' m' calls k task'' m'') :
      Active s (n + 1) task m (calls ++ (opened? s task task' m').toList) k task'' m''

theorem Door.calls_enter (s : Setting) (door : Door) (m : Machine) :
    (door.enter s m).calls.calls = door.call?.toList ++ m.calls.calls := by
  cases door <;> rfl

section
variable {s : Setting} {n k : Nat} {task task' : Task} {m m' : Machine} {active : List Call}

theorem Passes.calls_eq {hand : List Value} (h : Passes s n task m hand m') : m'.calls = m.calls :=
  (h.restored fun {_ _ _} => Task.restored s n).calls

theorem Calls.calls_eq (hc : Calls s n task m task' m') :
    m'.calls.calls = (opened? s task task' m').toList ++ m.calls.calls := by
  obtain ⟨hand, m₁, door, hp, hb, rfl⟩ := hc.begins
  rw [Door.calls_enter, hb.opened, hp.calls_eq]

/-- The machine keeps account of the active calls. -/
theorem Active.calls (ha : Active s n task m active k task' m') :
    m'.calls.calls = active ++ m.calls.calls := by
  induction ha with
  | here => rfl
  | call hc _ ih => rw [ih, hc.calls_eq, List.append_assoc]

end

/-! ## Interrupts on their way out -/

/-- The action is interrupted. -/
def Interrupted {α : Type} (act : Exec α) (m : Machine) (i : Interrupt) : Prop :=
  ∃ m', act m = .error i m'

section
variable {α β : Type} {x : Exec α} {f : α → Exec β} {m m₁ : Machine} {i : Interrupt}

theorem Interrupted.bind (h : Interrupted x m i) : Interrupted (x >>= f) m i := by
  obtain ⟨m', h⟩ := h
  exact ⟨m', bind_error h⟩

theorem Interrupted.after {a : α} (hx : x m = .ok a m₁) (h : Interrupted (f a) m₁ i) :
    Interrupted (x >>= f) m i := by
  obtain ⟨m', h⟩ := h
  exact ⟨m', (bind_ok hx).trans h⟩

theorem Interrupted.map {g : α → β} (h : Interrupted x m i) : Interrupted (g <$> x) m i := by
  obtain ⟨m', h⟩ := h
  exact ⟨m', map_error h⟩

theorem Interrupted.of_map {g : α → β} (h : Interrupted (g <$> x) m i) : Interrupted x m i := by
  obtain ⟨m', h⟩ := h
  cases hx : x m with
  | ok a m₁ => cases (map_ok hx).symm.trans h
  | error j m₁ =>
    cases (map_error hx).symm.trans h
    exact ⟨m', hx⟩

theorem Interrupted.inFrame {frame : Id} (h : Interrupted x { m with frame } i) :
    Interrupted (Exec.inFrame frame x) m i := by
  obtain ⟨m', h⟩ := h
  exact ⟨{ m' with frame := m.frame }, by simp only [Exec.inFrame, h]⟩

theorem Interrupted.asCall {s : Setting} {call : Call} (h : Interrupted x (m.enter s call) i) :
    Interrupted (Exec.asCall s call x) m (leaving call i) := by
  obtain ⟨m', h⟩ := h
  simp only [Machine.enter] at h
  cases i with
  | fault _ | broken _ | outOfFuel => exact ⟨_, by simp only [Exec.asCall, h]; rfl⟩

end

section
variable {s : Setting} {n : Nat} {task task' : Task} {m m' : Machine} {i : Interrupt}

/-- A task is interrupted when one that it has begun is. -/
theorem Calls.interrupted (hc : Calls s n task m task' m') (h : Interrupted (task'.run s n) m' i) :
    Interrupted (task.run s (n + 1)) m (i.out (opened? s task task' m')) := by
  cases hc with
  | group => exact h
  | operand | left | test | assigned | callee | getObject | setObject | expression | print | init
  | thenTest | elseTest | loopTest | returned =>
    exact Interrupted.map (Interrupted.bind h.of_map)
  | right hl => exact Interrupted.map (.after hl (.bind h.of_map))
  | undecided hl hd =>
    refine Interrupted.map (.after hl ?_)
    simp only [hd]
    exact h.of_map
  | arguments hf => exact Interrupted.map (.after hf (.bind h))
  | @apply callee paren args _ f m₁ vs m₂ c hf hvs hc hl =>
    have hc' : callable? s (m₂.enter s ⟨c.name, paren.line⟩).heap f = some c := hc
    refine Interrupted.map (.after hf (.after hvs (.after rfl ?_)))
    simp only [hc, hl, if_true, opened?, Task.paren?, Expr.paren?, hc', Option.bind_some,
      Option.map_some]
    exact h.of_map.asCall
  | setValue ho => exact Interrupted.map (.after ho (.bind h.of_map))
  | head => exact Interrupted.bind h.of_map
  | tail hv => exact .after hv (.bind h)
  | function => exact h
  | @initializer c args _ init hi =>
    have hnew : make (·.newInstance c) m = .ok m.heap.instances.size (m.withInstance c) := rfl
    have hheap : heap (m.withInstance c) = .ok (m.withInstance c).heap (m.withInstance c) := rfl
    refine Interrupted.map (.after hnew (.after hheap ?_))
    simp only [hi]
    exact .after rfl (.bind h.of_map)
  | body hc =>
    refine Interrupted.map (.after rfl ?_)
    simp only [hc]
    exact .after rfl (.bind (.inFrame h.of_map))
  | block => exact Interrupted.map (.after rfl (.after rfl (.inFrame h.of_map)))
  | thenYes hv ht | elseYes hv ht | elseNo hv ht =>
    refine Interrupted.map (.after hv ?_)
    simp only [ht]
    exact h.of_map
  | loopBody hv ht =>
    refine Interrupted.map (.after hv ?_)
    simp only [ht, if_true]
    exact .bind h.of_map
  | loopAgain hv ht hb =>
    refine Interrupted.map (.after hv ?_)
    simp only [ht, if_true]
    exact .after hb h.of_map
  | first => exact Interrupted.map (.bind h.of_map)
  | rest hs => exact Interrupted.map (.after hs h.of_map)

end

/-! ## The trace of a fault -/

/-- The task, with fuel `n + 1`, raises a fault: it ends in the fault, and no task that it has begun
ends in one. -/
def Task.Raises (s : Setting) (n : Nat) (task : Task) (m : Machine) (f : Fault) (m' : Machine) :
    Prop :=
  task.run s (n + 1) m = .error (.fault f) m' ∧
    ∀ task' m₁ f' m₂, Calls s n task m task' m₁ → task'.run s n m₁ ≠ .error (.fault f') m₂

section
variable {s : Setting} {n : Nat} {task : Task} {m m' : Machine} {f : Fault}

/-- A fault is raised with an empty trace. -/
theorem Task.Raises.trace_eq_nil (h : task.Raises s n m f m') : f.trace = [] := by
  obtain ⟨hr, hown⟩ := h
  have hs : Stopped s n task m (.fault f) m' := (task.ends_run s n m).error hr
  generalize hi : Interrupt.fault f = i at hs
  cases hs with
  | own _ hf => exact hf f hi.symm
  | begun _ hb hbegun =>
    obtain ⟨f', rfl⟩ := Door.fault_of_through hi.symm
    exact absurd hbegun (hown _ _ f' _ hb.calls)

theorem Task.Raises.calls (h : task.Raises s n m f m') : m'.calls = m.calls :=
  (Task.restored s (n + 1) (.inr ⟨f, h.1⟩)).calls

/-- The trace of a fault is the list of the calls that were active when it was raised. By induction
on the fuel, from the statement inwards to the task that raised it. -/
theorem Task.traced : ∀ {n : Nat} {task : Task} {m m' : Machine} {f : Fault},
    task.run s n m = .error (.fault f) m' → ∃ active k task' m₁ f₀ m₂,
      Active s n task m active (k + 1) task' m₁ ∧ task'.Raises s k m₁ f₀ m₂ ∧
        f = { f₀ with trace := active }
  | 0, task, m, m', f, h => by cases (task.run_zero s m).symm.trans h
  | n + 1, task, m, m', f, h => by
    -- a fault of a task that was begun goes through this one; otherwise it is this one's own
    by_cases hb : ∃ task' m₁ f' m₂, Calls s n task m task' m₁ ∧
        task'.run s n m₁ = .error (.fault f') m₂
    · obtain ⟨task', m₁, f', m₂, hc, hr⟩ := hb
      obtain ⟨active, k, task₀, m₀, f₀, m₃, ha, hraise, rfl⟩ := Task.traced hr
      refine ⟨_, k, task₀, m₀, f₀, m₃, .call hc ha, hraise, ?_⟩
      obtain ⟨m₄, hs⟩ := hc.interrupted ⟨m₂, hr⟩
      have heq := h.symm.trans hs
      cases ho : opened? s task task' m₁ with
      | none =>
        rw [ho] at heq
        cases heq
        simp
      | some c =>
        rw [ho] at heq
        cases heq
        rfl
    · have hraise : task.Raises s n m f m' :=
        ⟨h, fun task' m₁ f' m₂ hc hr => hb ⟨task', m₁, f', m₂, hc, hr⟩⟩
      refine ⟨[], n, task, m, f, m', .here, hraise, ?_⟩
      rw [← hraise.trace_eq_nil]

end

/-! ## The log -/

/-- What a log has more than that of `m`: each call in it was entered on the way to a task that was
reached, and the depth that it was logged with counts the calls that were active then, this one
included. -/
structure Logged (s : Setting) (R : List Call → Nat → Task → Machine → Prop) (m : Machine)
    (log : Array Event) : Prop where
  kept : ∀ {i}, i < m.log.size → log[i]? = m.log[i]?
  calls : ∀ {i path c depth}, m.log.size ≤ i → log[i]? = some (.call path c depth) →
    path = s.path ∧ ∃ active k callee args m₁, R (c :: active) k (.apply callee args) m₁ ∧
      m₁.log.size = i + 1 ∧ depth = (c :: active).length + m.calls.depth

namespace Logged

variable {s : Setting} {R R' : List Call → Nat → Task → Machine → Prop} {m m₁ : Machine}
  {log : Array Event}

theorem refl (s : Setting) (R : List Call → Nat → Task → Machine → Prop) (m : Machine) :
    Logged s R m m.log where
  kept _ := rfl
  calls hi h := by
    rw [Array.getElem?_eq_none hi] at h
    cases h

theorem lt_of_lt (h : Logged s R m log) {i : Nat} (hi : i < m.log.size) : i < log.size := by
  have hk := h.kept hi
  rw [Array.getElem?_eq_getElem hi] at hk
  exact (Array.getElem?_eq_some_iff.1 hk).1

/-- A log that goes on, while the calls `outer` are active. -/
theorem trans (outer : List Call) (h : Logged s R m m₁.log) (h' : Logged s R' m₁ log)
    (hR : ∀ {active k task m'}, R' active k task m' → R (active ++ outer) k task m')
    (hd : m₁.calls.depth = outer.length + m.calls.depth) : Logged s R m log := by
  refine ⟨fun hi => (h'.kept (h.lt_of_lt hi)).trans (h.kept hi), fun {i path c depth} hi he => ?_⟩
  by_cases hold : i < m₁.log.size
  · exact h.calls hi ((h'.kept hold).symm.trans he)
  · obtain ⟨rfl, active, k, callee, args, m₂, ha, hsize, rfl⟩ := h'.calls (Nat.not_lt.1 hold) he
    refine ⟨rfl, active ++ outer, k, callee, args, m₂, hR ha, hsize, ?_⟩
    simp only [hd, List.length_cons, List.length_append]
    omega

/-- One more event: if it is a call, then one that was just entered. -/
theorem push (h : Logged s R m log) {e : Event} (he : ∀ path c depth, e = .call path c depth →
      path = s.path ∧ ∃ active k callee args m₁, R (c :: active) k (.apply callee args) m₁ ∧
        m₁.log.size = log.size + 1 ∧ depth = (c :: active).length + m.calls.depth) :
    Logged s R m (log.push e) := by
  refine ⟨fun {i} hi => ?_, fun {i path c depth} hi hev => ?_⟩
  · rw [Array.getElem?_push, if_neg (Nat.ne_of_lt (h.lt_of_lt hi))]
    exact h.kept hi
  · rw [Array.getElem?_push] at hev
    split at hev
    · rename_i hsize
      cases hev
      rw [hsize]
      exact he path c depth rfl
    · exact h.calls hi hev

theorem record (h : Logged s R m m₁.log) {e : Event} (he : ∀ path c depth, e ≠ .call path c depth) :
    Logged s R m (m₁.record e).log :=
  h.push fun path c depth heq => absurd heq (he path c depth)

end Logged

/-- A call is opened for the application of a callee only. -/
theorem exists_apply_of_opened {s : Setting} {task task' : Task} {m : Machine} {c : Call}
    (h : opened? s task task' m = some c) : ∃ callee args, task' = .apply callee args := by
  cases task' with
  | apply callee args => exact ⟨callee, args, rfl⟩
  | _ => cases h

namespace Door

@[simp] theorem log_leave (door : Door) (m m' : Machine) : (door.leave m m').log = m'.log := by
  cases door <;> rfl

@[simp] theorem log_stop (door : Door) (i : Interrupt) (m m' : Machine) :
    (door.stop i m m').log = m'.log := by
  cases door with
  | here | frame g => rfl
  | call c => cases i <;> rfl

theorem depth_enter (s : Setting) (door : Door) (m : Machine) :
    (door.enter s m).calls.depth = door.call?.toList.length + m.calls.depth := by
  rw [CallStack.depth_eq, CallStack.depth_eq, calls_enter, List.length_append]

end Door

section
variable {s : Setting} {n : Nat} {task task' : Task} {m₀ m m' : Machine} {hand : List Value}
  {log : Array Event} {door : Door}

/-- The door of a call is where the call is logged. -/
theorem Begins.logged_enter (hb : Begins s n task m₀ hand m door task')
    (hc : m.calls = m₀.calls) (h : Logged s (Active s (n + 1) task m₀) m₀ m.log) :
    Logged s (Active s (n + 1) task m₀) m₀ (door.enter s m).log := by
  cases door with
  | here | frame g => exact h
  | call c =>
    refine h.push fun path c' depth heq => ?_
    cases heq
    obtain ⟨callee, args, rfl⟩ := exists_apply_of_opened hb.opened
    have ha := Active.call hb.calls (.here (s := s))
    rw [hb.opened] at ha
    refine ⟨rfl, [], n, callee, args, _, ha, Array.size_push _, ?_⟩
    rw [← hc, List.length_singleton, Nat.add_comm]
    rfl

/-- What a task logs that another has begun. -/
theorem Begins.logged (hb : Begins s n task m₀ hand m door task') (hc : m.calls = m₀.calls)
    (h : Logged s (Active s (n + 1) task m₀) m₀ m.log)
    (h' : Logged s (Active s n task' (door.enter s m)) (door.enter s m) log) :
    Logged s (Active s (n + 1) task m₀) m₀ log := by
  refine (hb.logged_enter hc h).trans door.call?.toList h' (fun {active k task₁ m₁} ha => ?_) ?_
  · rw [← hb.opened]
    exact .call hb.calls ha
  · rw [door.depth_enter, hc]

theorem Passes.logged
    (ih : ∀ task m, Ends (Task.run s n task) m (fun _ m' => Logged s (Active s n task m) m m'.log)
      (fun _ m' => Logged s (Active s n task m) m m'.log))
    (h : Passes s n task m₀ hand m) : Logged s (Active s (n + 1) task m₀) m₀ m.log := by
  induction h with
  | start => exact .refl s _ m₀
  | take _ _ ih' | edit _ _ ih' | print _ ih' | tick _ ih' | native _ _ _ _ ih' => exact ih'
  | run h hb hr ih' =>
    rw [Door.log_leave]
    exact hb.logged h.calls_eq ih' ((ih _ _).ok hr)

/-- However a task ends, the depth of each call that it has logged is the number of the calls that
were active. -/
theorem Task.logged (s : Setting) : ∀ (n : Nat) (task : Task) (m : Machine),
    Ends (task.run s n) m (fun _ m' => Logged s (Active s n task m) m m'.log)
      (fun _ m' => Logged s (Active s n task m) m m'.log)
  | 0, task, m => ends_of_error (task.run_zero s m) (.refl s _ m)
  | n + 1, task, m => by
    refine (task.ends_run s n m).mono ?_ ?_
    · rintro vs m' - ⟨hand, hp, -⟩
      exact hp.logged (Task.logged s n)
    · intro i m' hs
      cases hs with
      | own hp _ => exact hp.logged (Task.logged s n)
      | begun hp hb hr =>
        rw [Door.log_stop]
        exact hb.logged hp.calls_eq (hp.logged (Task.logged s n)) ((Task.logged s n _ _).error hr)

end

/-! ## Sessions -/

namespace Session

/-- While the statements are executed one after the other, from the machine `m`, the task is begun
in `m'`, with the calls `active`. -/
def Reaches (s : Setting) (fuel : Nat) (stmts : List Stmt) (m : Machine) (active : List Call)
    (k : Nat) (task : Task) (m' : Machine) : Prop :=
  ∃ before stmt rest m₀, stmts = before ++ stmt :: rest ∧ executeEach s fuel before m = .ok () m₀ ∧
    Active s fuel (.execute stmt) m₀ active k task m'

section
variable {s : Setting} {fuel k : Nat} {stmt : Stmt} {rest : List Stmt} {m m₁ m' : Machine}
  {active : List Call} {task : Task}

theorem Reaches.first (h : Active s fuel (.execute stmt) m active k task m') :
    Reaches s fuel (stmt :: rest) m active k task m' :=
  ⟨[], stmt, rest, m, rfl, rfl, h⟩

theorem Reaches.later {c : Completion} (hs : execute s fuel stmt m = .ok c m₁)
    (h : Reaches s fuel rest m₁ active k task m') :
    Reaches s fuel (stmt :: rest) m active k task m' := by
  obtain ⟨before, stmt', rest', m₀, rfl, hb, ha⟩ := h
  exact ⟨stmt :: before, stmt', rest', m₀, rfl, (bind_ok hs).trans hb, ha⟩

theorem calls_of_execute {c : Completion} (h : execute s fuel stmt m = .ok c m₁) :
    m₁.calls = m.calls :=
  (restored_execute (.inl ⟨c, h⟩)).calls

/-- A fault in a program has the active calls as its trace. -/
theorem traced_executeEach : ∀ {stmts : List Stmt} {m m' : Machine} {f : Fault},
    executeEach s fuel stmts m = .error (.fault f) m' → ∃ active k task m₁ f₀ m₂,
      Reaches s fuel stmts m active (k + 1) task m₁ ∧ task.Raises s k m₁ f₀ m₂ ∧
        f = { f₀ with trace := active } ∧ m₂.calls.calls = active ++ m.calls.calls
  | [], m, m', f, h => by cases h
  | stmt :: rest, m, m', f, h => by
    cases hs : execute s fuel stmt m with
    | ok c m₁ =>
      obtain ⟨active, k, task, m₂, f₀, m₃, hr, hraise, hf, hcalls⟩ :=
        traced_executeEach ((bind_ok hs).symm.trans h)
      rw [calls_of_execute hs] at hcalls
      exact ⟨active, k, task, m₂, f₀, m₃, hr.later hs, hraise, hf, hcalls⟩
    | error i m₁ =>
      cases (bind_error hs).symm.trans h
      have ht : Task.run s fuel (.execute stmt) m = .error (.fault f) m' := map_error hs
      obtain ⟨active, k, task, m₂, f₀, m₃, ha, hraise, hf⟩ := Task.traced ht
      refine ⟨active, k, task, m₂, f₀, m₃, .first ha, hraise, hf, ?_⟩
      rw [hraise.calls]
      exact ha.calls

theorem logged_executeEach : ∀ (stmts : List Stmt) (m : Machine),
    Ends (executeEach s fuel stmts) m (fun _ m' => Logged s (Reaches s fuel stmts m) m m'.log)
      (fun _ m' => Logged s (Reaches s fuel stmts m) m m'.log)
  | [], m => ends_pure (.refl s _ m)
  | stmt :: rest, m => by
    have hx := (Task.logged s fuel (.execute stmt) m).of_map
    have hfirst : ∀ {log}, Logged s (Active s fuel (.execute stmt) m) m log →
        Logged s (Reaches s fuel (stmt :: rest) m) m log := fun h =>
      (Logged.refl s _ m).trans [] h
        (fun {active k task m'} ha => by rw [List.append_nil]; exact .first ha) (by simp)
    refine Ends.bind (hx.mono (fun _ m₁ _ h => hfirst h) fun _ m₁ h => hfirst h) fun c m₁ hs h => ?_
    have hnext : ∀ {log}, Logged s (Reaches s fuel rest m₁) m₁ log →
        Logged s (Reaches s fuel (stmt :: rest) m) m log := fun h' =>
      h.trans [] h' (fun {active k task m'} hr => by rw [List.append_nil]; exact hr.later hs)
        (by rw [calls_of_execute hs]; simp)
    exact (logged_executeEach rest m₁).mono (fun _ m₂ _ h' => hnext h') fun _ m₂ h' => hnext h'

end

/-- When the source is run on the machine `m`, the task is begun in `m'` with the calls `active`. -/
structure Reached (s : Setting) (fuel : Nat) (source : String) (m : Machine) (active : List Call)
    (k : Nat) (task : Task) (m' : Machine) : Prop where
  accepted : (Program.compile source).Accepted
  reaches : Reaches s fuel (Program.compile source).bound (begun s source m) active k task m'

section
variable {s : Setting} {fuel : Nat}

/-- Compiling a source and beginning to interpret it are logged, but they are no calls. -/
theorem logged_begun (source : String) (R : List Call → Nat → Task → Machine → Prop) (m : Machine) :
    Logged s R m (begun s source m).log := by
  have hc : Logged s R m (compiled (Program.compile source) m).log :=
    (Logged.refl s R m).record fun _ _ _ he => by cases he
  exact hc.record fun _ _ _ he => by cases he

/-- The log of a run, however it ends. -/
theorem logged_run (fuel : Nat) (source : String) (m : Machine) :
    Logged s (Reached s fuel source m) m (run s fuel source {} m).machine.log := by
  have hx : Ends (executeEach s fuel (Program.compile source).bound) (begun s source m) _ _ :=
    logged_executeEach (Program.compile source).bound (begun s source m)
  have goes : (Program.compile source).Accepted → ∀ {log}, Logged s (Reaches s fuel
      (Program.compile source).bound (begun s source m)) (begun s source m) log →
      Logged s (Reached s fuel source m) m log := fun ha _ h =>
    (logged_begun source _ m).trans [] h
      (fun {active k task m'} hr => by rw [List.append_nil]; exact ⟨ha, hr⟩)
      (by simp [begun, compiled, Machine.record])
  have h := ran s fuel source m
  generalize run s fuel source {} m = outcome at h ⊢
  cases h with
  | rejected _ => exact (Logged.refl s _ m).record fun _ _ _ he => by cases he
  | finished ha he => exact goes ha (hx.ok he)
  | interrupted ha he _ =>
    have hlog := goes ha (hx.error he)
    exact hlog

/-- A source that ends in a fault is accepted, and the fault is that of its statements. -/
theorem executeEach_of_fault {source : String} {m : Machine} {f : Fault}
    (hf : (run s fuel source {} m).ending = .fault f) :
    (Program.compile source).Accepted ∧ ∃ m', executeEach s fuel (Program.compile source).bound
      (begun s source m) = .error (.fault f) m' := by
  have h := ran s fuel source m
  generalize run s fuel source {} m = outcome at h hf
  cases h with
  | rejected _ | finished _ _ => cases hf
  | @interrupted i m₁ _ ha he _ =>
    cases i with
    | fault f' =>
      cases hf
      exact ⟨ha, m₁, he⟩
    | broken b | outOfFuel => cases hf

end

/-- **The trace is the call stack.** When a run ends in a fault, there is a task of the run that
raised it, and the trace holds the calls that were active there, innermost first, which are those
that the machine counted. And the depth of each call that a run logs, however it ends, is the number
of the calls that were active when it was logged, the call itself included. Where the runs before
came back, there is nothing else to count: they have left no call active. -/
theorem trace_eq_active_calls (s : Setting) (clock : Clock) (runs : List (Nat × String))
    (fuel : Nat) (source : String) :
    let m := after s clock runs
    let outcome := run s fuel source {} m
    (∀ f, outcome.ending = .fault f → ∃ active k task m₁ f₀ m₂,
      Reached s fuel source m active (k + 1) task m₁ ∧ task.Raises s k m₁ f₀ m₂ ∧
        f = { f₀ with trace := active } ∧ m₂.calls.calls = active ++ m.calls.calls) ∧
    (∀ i path c depth, m.log.size ≤ i → outcome.machine.log[i]? = some (.call path c depth) →
      path = s.path ∧ ∃ active k callee args m₁,
        Reached s fuel source m (c :: active) k (.apply callee args) m₁ ∧
          m₁.log.size = i + 1 ∧ depth = (c :: active).length + m.calls.depth) ∧
    (Orderly s clock runs → m.calls.calls = [] ∧ m.calls.depth = 0) := by
  intro m outcome
  refine ⟨fun f hf => ?_, fun i path c depth => (logged_run fuel source m).calls, fun ho => ?_⟩
  · obtain ⟨ha, m', hx⟩ := executeEach_of_fault hf
    obtain ⟨active, k, task, m₁, f₀, m₂, hr, hraise, htrace, hcalls⟩ := traced_executeEach hx
    exact ⟨active, k, task, m₁, f₀, m₂, ⟨ha, hr⟩, hraise, htrace, hcalls⟩
  · have hd := ho.idle_after.depth
    exact ⟨List.eq_nil_of_length_eq_zero (m.calls.depth_eq.symm.trans hd), hd⟩

/-- A native that fails in an initializer: its own call is in the trace, the class stands there
once, and the calls that had returned do not. One of these is the ninth event of the log. -/
theorem trace_of_failing_native_in_initializer :
    let s : Setting :=
      { path := "a", natives := [Native.argument "same" 1 0, Native.failing "boom" 1 7 "no"] }
    let runs := [(30, "class A \x7b init(x) \x7b\n boom(same(x)); \x7d \x7d" ++
      "fun make(x) \x7b return A(\nsame(x)); \x7d")]
    let source := "make(same(nil));"
    let m := after s [] runs
    let outcome := run s 30 source {} m
    let calls : List Call := [⟨"boom", 2⟩, ⟨"A", 3⟩, ⟨"make", 1⟩]
    let same : Call := ⟨"same", 2⟩
    (Orderly s [] runs ∧ m.calls.calls = [] ∧ m.log.size = 2) ∧
    (outcome.ending = .fault ⟨⟨.eof, "", 7, 0⟩, .native "no", calls⟩ ∧
      ∃ k task m₁ f₀ m₂, Reached s 30 source m calls (k + 1) task m₁ ∧ task.Raises s k m₁ f₀ m₂ ∧
        m₂.calls.calls = calls) ∧
    outcome.machine.log[8]? = some (.call "a" same 3) ∧
      ∃ active k callee args m₁, Reached s 30 source m (same :: active) k (.apply callee args) m₁ ∧
        m₁.log.size = 9 ∧ 3 = (same :: active).length := by
  intro s runs source m outcome calls same
  obtain ⟨htrace, hlog, hidle⟩ := trace_eq_active_calls s [] runs 30 source
  obtain ⟨ho, hsize, hf, he⟩ : Orderly s [] runs ∧ m.log.size = 2 ∧
      outcome.ending = .fault ⟨⟨.eof, "", 7, 0⟩, .native "no", calls⟩ ∧
      outcome.machine.log[8]? = some (.call "a" same 3) := by decide +kernel
  obtain ⟨hnone, hdepth⟩ := hidle ho
  obtain ⟨active, k, task, m₁, f₀, m₂, hr, hraise, htr, hcalls⟩ := htrace _ hf
  have hactive : active = calls := (congrArg Fault.trace htr).symm
  rw [hnone, List.append_nil] at hcalls
  rw [hactive] at hr hcalls
  obtain ⟨-, active', k', callee, args, m₃, hr', hsize', hd⟩ :=
    hlog 8 "a" same 3 (by rw [hsize]; decide) he
  rw [hdepth] at hd
  exact ⟨⟨ho, hnone, hsize⟩, ⟨hf, k, task, m₁, f₀, m₂, hr, hraise, hcalls⟩, he, active', k', callee,
    args, m₃, hr', hsize', hd⟩

end Session

end Lox

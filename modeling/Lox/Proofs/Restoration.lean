import Lox.Proofs.Conduct

/-!
# Actions that come back

An action comes back if it ends in a value or in a fault (`ComesBack`). Then the machine is in the
same frame and in the same calls as before, and no code has changed: every function, every frame and
the places that references lead to are as they were (`Restored`). One task after the other comes
back so (`Task.restored`), and hence every statement, block, expression and call.

Main statement: a session whose sources all come back stands in the globals, outside every call,
after each of them, so there is nothing to repair after a fault (`restored_of_comesBack`).
-/

namespace Lox

open Heap Exec Eval

/-! ## Coming back -/

/-- The action ends in a value or in a fault, with the machine `m'`. -/
def ComesBack {α : Type} (act : Exec α) (m m' : Machine) : Prop :=
  (∃ a, act m = .ok a m') ∨ ∃ f, act m = .error (.fault f) m'

/-- What an action that runs some code, with the references `code`, has left as it was: the current
frame, the active calls, what was in the heap (the frame of the globals with it), and the table of
references with the distances that they lead. -/
structure Restored (code : List (Use × Reference)) (m m' : Machine) : Prop where
  frame : m'.frame = m.frame
  calls : m'.calls = m.calls
  heap : m.heap.Persists m'.heap
  references : ∀ r, (m'.heap.Refers r ∨ r ∈ code) ↔ (m.heap.Refers r ∨ r ∈ code)

theorem Heap.Persists.refers {h h' : Heap} (hp : h.Persists h') {r : Use × Reference}
    (hr : h.Refers r) : h'.Refers r := by
  obtain ⟨i, c, hc, hm⟩ := hr
  exact ⟨i, c, hp.functions hc, hm⟩

theorem ComesBack.bind {α β : Type} {x : Exec α} {f : α → Exec β} {m m' : Machine}
    (h : ComesBack (x >>= f) m m') :
    ComesBack x m m' ∨ ∃ a m₁, x m = .ok a m₁ ∧ ComesBack (f a) m₁ m' := by
  cases hx : x m with
  | ok a m₁ =>
    refine .inr ⟨a, m₁, rfl, ?_⟩
    rcases h with ⟨b, h⟩ | ⟨i, h⟩
    · exact .inl ⟨b, (bind_ok hx).symm.trans h⟩
    · exact .inr ⟨i, (bind_ok hx).symm.trans h⟩
  | error i m₁ =>
    rcases h with ⟨b, h⟩ | ⟨j, h⟩
    · cases (bind_error hx).symm.trans h
    · cases (bind_error hx).symm.trans h
      exact .inl (.inr ⟨j, hx⟩)

theorem ComesBack.map {α β : Type} {x : Exec α} {m m' : Machine} (g : α → β)
    (h : ComesBack x m m') : ComesBack (g <$> x) m m' := by
  rcases h with ⟨a, h⟩ | ⟨f, h⟩
  · exact .inl ⟨g a, map_ok h⟩
  · exact .inr ⟨f, map_error h⟩

/-- What holds wherever an action comes back, in terms of how it ends. -/
theorem comesBack_iff_ends {α : Type} {act : Exec α} {m : Machine} {P : Machine → Prop} :
    (∀ m', ComesBack act m m' → P m') ↔
      Ends act m (fun _ m' => P m') fun i m' => ∀ f, i = .fault f → P m' := by
  constructor
  · intro h
    cases ha : act m with
    | ok a m' => exact ends_of_ok ha (h m' (.inl ⟨a, ha⟩))
    | error i m' =>
      refine ends_of_error ha fun f hf => h m' (.inr ⟨f, ?_⟩)
      rw [ha, hf]
  · rintro h m' (⟨a, ha⟩ | ⟨f, ha⟩)
    · exact h.ok ha
    · exact h.error ha f rfl

/-! ## Doors -/

theorem CallStack.pop_push (c : CallStack) (call : Call) : (c.push call).pop = c := by
  cases c
  rfl

@[simp] theorem Door.heap_enter (s : Setting) (door : Door) (m : Machine) :
    (door.enter s m).heap = m.heap := by
  cases door <;> rfl

/-- What comes back behind a door comes back in front of it. -/
theorem Restored.leave {s : Setting} {door : Door} {code : List (Use × Reference)}
    {m m' : Machine} (h : Restored code (door.enter s m) m') : Restored code m (door.leave m m') := by
  cases door with
  | here => exact h
  | frame g => exact ⟨rfl, h.calls, h.heap, h.references⟩
  | call c =>
    refine ⟨h.frame, ?_, h.heap, h.references⟩
    change m'.calls.pop = m.calls
    rw [h.calls]
    exact CallStack.pop_push m.calls c

/-! ## Tasks -/

section
variable {s : Setting} {n : Nat} {task : Task} {m₀ m m' : Machine} {hand : List Value}

/-- Edits put no references into the heap but those of the task. -/
theorem Heap.Edit.refers_apply {e : Edit} (he : e.Drawn task hand m) {r : Use × Reference}
    (hr : (e.apply m.heap).Refers r) : m.heap.Refers r ∨ r ∈ task.references := by
  cases e with
  | function c =>
    obtain ⟨i, c', hc, hm⟩ := hr
    rcases Heap.eq_or_of_newFunction hc with h1 | rfl
    · exact .inl ⟨i, c', h1, hm⟩
    · exact (he.2 r hm).symm
  | frame _ | cls _ | object _ | bind _ _ _ | field _ _ _ => exact .inl hr

/-- One after the other, where the code of the second comes from the first or from the heap. -/
theorem Restored.then {code code' : List (Use × Reference)} {m₁ : Machine}
    (h : Restored code m m') (h' : Restored code' m' m₁)
    (hc : ∀ r ∈ code', r ∈ code ∨ m'.heap.Refers r) : Restored code m m₁ where
  frame := h'.frame.trans h.frame
  calls := h'.calls.trans h.calls
  heap := h.heap.trans h'.heap
  references r := by
    refine Iff.trans ⟨?_, ?_⟩ (h.references r)
    · rintro (hr | hr)
      · rcases (h'.references r).1 (.inl hr) with hr | hr
        · exact .inl hr
        · exact (hc r hr).symm
      · exact .inr hr
    · exact Or.imp_left h'.heap.refers

/-- What comes back behind the door through which a task is begun comes back to the task. -/
theorem Begins.restored {door : Door} {task' : Task} (hb : Begins s n task m₀ hand m door task')
    (h : Restored task.references m₀ m) (h' : Restored task'.references (door.enter s m) m') :
    Restored task.references m₀ (door.leave m m') := by
  refine h.then h'.leave fun r hr => ?_
  have hm := hb.calls.references r hr
  rwa [Door.heap_enter] at hm

/-- The machines that a task passes through, if the tasks that it runs come back. -/
theorem Passes.restored
    (ih : ∀ {task : Task} {m m' : Machine}, ComesBack (task.run s n) m m' →
      Restored task.references m m')
    (h : Passes s n task m₀ hand m) : Restored task.references m₀ m := by
  induction h with
  | start => exact ⟨rfl, rfl, .refl _, fun _ => .rfl⟩
  | take _ _ ih' => exact ih'
  | @edit hand m e _ he ih' =>
    have hp := persists_apply e m.heap
    refine ⟨ih'.frame, ih'.calls, ih'.heap.trans hp, fun r => Iff.trans ⟨?_, ?_⟩ (ih'.references r)⟩
    · rintro (hr | hr)
      · exact Edit.refers_apply he hr
      · exact .inr hr
    · exact Or.imp_left hp.refers
  | print _ ih' => exact ⟨ih'.frame, ih'.calls, ih'.heap, ih'.references⟩
  | tick _ ih' => exact ⟨ih'.frame, ih'.calls, ih'.heap, ih'.references⟩
  | native _ _ _ _ ih' => exact ⟨ih'.frame, ih'.calls, ih'.heap, ih'.references⟩
  | run _ hb hr ih' => exact hb.restored ih' (ih (.inl ⟨_, hr⟩))

/-- A fault pops the call that it leaves, as a value does. -/
theorem Door.stop_fault (door : Door) (f : Fault) (m m' : Machine) :
    door.stop (.fault f) m m' = door.leave m m' := by
  cases door <;> rfl

theorem Door.fault_of_through {door : Door} {i : Interrupt} {f : Fault}
    (h : door.through i = .fault f) : ∃ f', i = .fault f' := by
  cases i with
  | fault f' => exact ⟨f', rfl⟩
  | broken b | outOfFuel => cases door <;> cases h

/-- **Every task that comes back is restored.** By induction on the fuel: the tasks that it begins
have less. -/
theorem Task.restored (s : Setting) : ∀ (n : Nat) {task : Task} {m m' : Machine},
    ComesBack (task.run s n) m m' → Restored task.references m m'
  | 0, task, m, m', h => by
    rcases h with ⟨vs, h⟩ | ⟨f, h⟩
    · cases (task.run_zero s m).symm.trans h
    · cases (task.run_zero s m).symm.trans h
  | n + 1, task, m, m', h => by
    have ih : ∀ {task : Task} {m m' : Machine}, ComesBack (task.run s n) m m' →
      Restored task.references m m' := Task.restored s n
    rcases h with ⟨vs, h⟩ | ⟨f, h⟩
    · obtain ⟨hand, hp, -⟩ := (task.ends_run s n m).ok h
      exact hp.restored ih
    · have hs : Stopped s n task m (.fault f) m' := (task.ends_run s n m).error h
      generalize hi : Interrupt.fault f = i at hs
      cases hs with
      | own hp _ => exact hp.restored ih
      | begun hp hb hr =>
        -- only a fault that has come from a fault is left with the call popped
        obtain ⟨f', rfl⟩ := Door.fault_of_through hi.symm
        rw [Door.stop_fault]
        exact hb.restored (hp.restored ih) (ih (.inr ⟨f', hr⟩))

end

/-! ## Actions -/

section
variable {s : Setting} {n : Nat} {m m' : Machine}

theorem Restored.refl (code : List (Use × Reference)) (m : Machine) : Restored code m m :=
  ⟨rfl, rfl, .refl _, fun _ => .rfl⟩

theorem restored_evaluate {e : Expr} (h : ComesBack (evaluate s n e) m m') :
    Restored e.references m m' := by
  have ht : ComesBack (Task.run s n (.evaluate e)) m m' := h.map ([·])
  exact Task.restored s n ht

theorem restored_execute {stmt : Stmt} (h : ComesBack (execute s n stmt) m m') :
    Restored stmt.references m m' := by
  have ht : ComesBack (Task.run s n (.execute stmt)) m m' := h.map Completion.values
  exact Task.restored s n ht

/-- The statements of a block, in a frame of their own. -/
theorem restored_inFrame {frame : Id} {stmts : List Stmt}
    (h : ComesBack (inFrame frame (executeAll s n stmts)) m m') :
    Restored (Stmt.referencesAll stmts) m m' := by
  have key : ∀ m₁, ComesBack (executeAll s n stmts) { m with frame } m₁ →
      Restored (Stmt.referencesAll stmts) m { m₁ with frame := m.frame } := by
    intro m₁ hb
    have ht : ComesBack (Task.run s n (.executeAll stmts)) (Door.enter s (.frame frame) m) m₁ :=
      hb.map Completion.values
    exact (Task.restored s n ht).leave
  exact comesBack_iff_ends.2 (ends_inFrame (comesBack_iff_ends.1 key)) m' h

/-- A callee that is applied as a call. -/
theorem restored_asCall {call : Call} {callee : Value} {args : List Value}
    (h : ComesBack (asCall s call (apply s n callee args)) m m') : Restored [] m m' := by
  have key : ∀ m₁, ComesBack (apply s n callee args) (m.enter s call) m₁ →
      Restored [] m { m₁ with calls := m₁.calls.pop } := by
    intro m₁ hb
    have ht : ComesBack (Task.run s n (.apply callee args)) (Door.enter s (.call call) m) m₁ :=
      hb.map ([·])
    exact (Task.restored s n ht).leave
  refine comesBack_iff_ends.2
    (ends_asCall ((comesBack_iff_ends.1 key).mono (fun _ _ _ hr => hr) ?_)) m' h
  intro i m₁ hr f hf
  cases i with
  | fault f' => exact hr f' rfl
  | broken b | outOfFuel => cases hf

end

/-! ## Sessions -/

/-- The machine stands in the globals, outside every call. -/
structure Machine.Idle (m : Machine) : Prop where
  frame : m.frame = globals
  depth : m.calls.depth = 0

/-- The program ran to its end or to a fault. -/
def Ending.comesBack : Ending → Bool
  | .finished | .fault _ => true
  | .broken _ | .outOfFuel => false

namespace Session

variable {s : Setting} {fuel : Nat} {m m' : Machine}

/-- The endings of sources that are run in turn. -/
def endingOfEach (s : Setting) : List (Nat × String) → Machine → List Ending
  | [], _ => []
  | (fuel, source) :: rest, m =>
    (run s fuel source {} m).ending :: endingOfEach s rest (run s fuel source {} m).machine

/-- Every source of the session comes back. -/
def Orderly (s : Setting) (clock : Clock) (runs : List (Nat × String)) : Prop :=
  ∀ ending ∈ endingOfEach s runs (.initial s.natives clock), ending.comesBack = true

instance (s : Setting) (clock : Clock) (runs : List (Nat × String)) :
    Decidable (Orderly s clock runs) :=
  inferInstanceAs (Decidable (∀ ending ∈ _, _))

theorem restored_executeEach : ∀ {stmts : List Stmt} {m : Machine},
    ComesBack (executeEach s fuel stmts) m m' → Restored (Stmt.referencesAll stmts) m m'
  | [], m, h => by
    rcases h with ⟨_, ⟨⟩⟩ | ⟨_, ⟨⟩⟩
    exact .refl _ _
  | stmt :: rest, m, h => by
    have first : ∀ {m₁ : Machine}, ComesBack (execute s fuel stmt) m m₁ →
        Restored (Stmt.referencesAll (stmt :: rest)) m m₁ := fun h₁ =>
      (Restored.refl _ m).then (restored_execute h₁) fun r hr => .inl (List.mem_append_left _ hr)
    rcases h.bind with h | ⟨c, m₁, h₁, h⟩
    · exact first h
    · exact (first (.inl ⟨c, h₁⟩)).then (restored_executeEach h)
        fun r hr => .inl (List.mem_append_right _ hr)

/-- The statements of a source, from an idle machine. -/
theorem idle_of_executeEach {source : String} {stmts : List Stmt} (hm : m.Idle)
    (h : ComesBack (executeEach s fuel stmts) (begun s source m) m') : m'.Idle := by
  have hr := restored_executeEach h
  refine ⟨hr.frame.trans hm.frame, ?_⟩
  rw [hr.calls]
  exact hm.depth

theorem idle_run {source : String} (hm : m.Idle)
    (he : (run s fuel source {} m).ending.comesBack = true) :
    (run s fuel source {} m).machine.Idle := by
  have h := ran s fuel source m
  generalize run s fuel source {} m = outcome at h he ⊢
  cases h with
  | rejected _ => exact ⟨hm.frame, hm.depth⟩
  | finished _ hx => exact idle_of_executeEach hm (.inl ⟨_, hx⟩)
  | @interrupted i m₁ frame _ hx hf =>
    cases i with
    | fault f =>
      have hm₁ : m₁.Idle := idle_of_executeEach hm (.inr ⟨f, hx⟩)
      exact ⟨hf.elim (·.trans hm₁.frame) id, hm₁.depth⟩
    | broken b | outOfFuel => cases he

/-- Sources that come back one after the other leave the machine idle. -/
theorem idle_foldl : ∀ (runs : List (Nat × String)) {m : Machine}, m.Idle →
    (∀ ending ∈ endingOfEach s runs m, ending.comesBack = true) →
    (runs.foldl (fun m r => (run s r.1 r.2 {} m).machine) m).Idle
  | [], _, hm, _ => hm
  | (fuel, source) :: rest, m, hm, he => by
    have h₁ := idle_run hm (he _ List.mem_cons_self)
    exact idle_foldl rest h₁ fun ending hr => he ending (List.mem_cons_of_mem _ hr)

theorem Orderly.idle_after {clock : Clock} {runs : List (Nat × String)}
    (ho : Orderly s clock runs) : (after s clock runs).Idle :=
  idle_foldl runs ⟨rfl, rfl⟩ ho

/-- **What comes back is back.** However a statement, a block, an expression or a call comes back,
by a value, a return or a fault, the machine is in the frame and in the calls in which it began, and
what code and frames there are is as it was. So a session whose sources all come back is idle after
each of them; and a source that ends in a fault has left the machine idle by itself: taking the
machine back to the globals changes nothing. -/
theorem restored_of_comesBack (s : Setting) :
    (∀ n stmt m m', ComesBack (execute s n stmt) m m' → Restored stmt.references m m') ∧
    (∀ n frame stmts m m', ComesBack (inFrame frame (executeAll s n stmts)) m m' →
      Restored (Stmt.referencesAll stmts) m m') ∧
    (∀ n e m m', ComesBack (evaluate s n e) m m' → Restored e.references m m') ∧
    (∀ n call callee args m m', ComesBack (asCall s call (apply s n callee args)) m m' →
      Restored [] m m') ∧
    ∀ clock runs, Orderly s clock runs → (after s clock runs).Idle ∧
      ∀ fuel source, (Program.compile source).Accepted → ∀ f m',
        executeEach s fuel (Program.compile source).bound (begun s source (after s clock runs)) =
          .error (.fault f) m' →
        m'.Idle ∧ run s fuel source {} (after s clock runs) = ⟨[], .fault f, m'⟩ := by
  refine ⟨fun _ _ _ _ => restored_execute, fun _ _ _ _ _ => restored_inFrame,
    fun _ _ _ _ => restored_evaluate, fun _ _ _ _ _ _ => restored_asCall, fun clock runs ho => ?_⟩
  refine ⟨ho.idle_after, fun fuel source ha f m' hx => ?_⟩
  have hm' : m'.Idle := idle_of_executeEach ho.idle_after (.inr ⟨f, hx⟩)
  exact ⟨hm', run_of_error ha hm'.frame hx⟩

/-- Whether an action ends in a fault. -/
def faults {α : Type} (act : Exec α) (m : Machine) : Bool :=
  match act m with
  | .error (.fault _) _ => true
  | _ => false

theorem exists_of_faults {α : Type} {act : Exec α} {m : Machine} (h : faults act m = true) :
    ∃ f m', act m = .error (.fault f) m' := by
  unfold faults at h
  split at h
  · exact ⟨_, _, ‹_›⟩
  · cases h

theorem comesBack_of_faults {α : Type} {act : Exec α} {m : Machine} (h : faults act m = true) :
    ∃ m', ComesBack act m m' := by
  obtain ⟨f, m', h⟩ := exists_of_faults h
  exact ⟨m', .inr ⟨f, h⟩⟩

/-- A fault two calls, two blocks and a loop deep, after which the session goes on. -/
theorem restored_after_nested_fault :
    let s : Setting := { path := "", natives := [Native.clock] }
    let runs := [(30, "fun f(n) \x7b \x7b if (n == nil) return missing; \x7d return n; \x7d" ++
      "fun g(n) \x7b while (true) \x7b \x7b return f(n); \x7d \x7d \x7d g(nil);")]
    let m := after s [] runs
    let source := "g(true); \x7b g(nil); \x7d"
    let body := (Program.compile source).bound
    let g : Expr := .name ⟨⟨.identifier, "g", 1, 0⟩, none⟩
    let call : Expr := .call g ⟨.rightParen, ")", 1, 5⟩ [.literal .nil]
    (Orderly s [] runs ∧ m.Idle) ∧
    (∃ m', ComesBack (execute s 30 (.block body)) m m' ∧
      Restored (Stmt.references (.block body)) m m') ∧
    (∃ m', ComesBack (inFrame globals (executeAll s 30 body)) m m' ∧
      Restored (Stmt.referencesAll body) m m') ∧
    (∃ m', ComesBack (evaluate s 30 call) m m' ∧ Restored call.references m m') ∧
    (∃ m', ComesBack (asCall s ⟨"g", 1⟩ (apply s 30 (.function 1) [.nil])) m m' ∧ Restored [] m m') ∧
    ∃ f m', executeEach s 30 body (begun s source m) = .error (.fault f) m' ∧
      m'.Idle ∧ run s 30 source {} m = ⟨[], .fault f, m'⟩ := by
  intro s runs m source body g call
  obtain ⟨hx, hb, he, hc, hs⟩ := restored_of_comesBack s
  obtain ⟨ho, ha, h₁, h₂, h₃, h₄, h₅⟩ : Orderly s [] runs ∧ (Program.compile source).Accepted ∧
      faults (execute s 30 (.block body)) m = true ∧
      faults (inFrame globals (executeAll s 30 body)) m = true ∧
      faults (evaluate s 30 call) m = true ∧
      faults (asCall s ⟨"g", 1⟩ (apply s 30 (.function 1) [.nil])) m = true ∧
      faults (executeEach s 30 body) (begun s source m) = true := by decide +kernel
  obtain ⟨m₁, h₁⟩ := comesBack_of_faults h₁
  obtain ⟨m₂, h₂⟩ := comesBack_of_faults h₂
  obtain ⟨m₃, h₃⟩ := comesBack_of_faults h₃
  obtain ⟨m₄, h₄⟩ := comesBack_of_faults h₄
  obtain ⟨f, m₅, h₅⟩ := exists_of_faults h₅
  obtain ⟨hidle, hrun⟩ := hs [] runs ho
  exact ⟨⟨ho, hidle⟩, ⟨m₁, h₁, hx _ _ _ _ h₁⟩, ⟨m₂, h₂, hb _ _ _ _ _ h₂⟩,
    ⟨m₃, h₃, he _ _ _ _ h₃⟩, ⟨m₄, h₄, hc _ _ _ _ _ _ h₄⟩, f, m₅, h₅, hrun 30 source ha f m₅ h₅⟩

end Session

end Lox

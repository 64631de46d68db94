import Lox.Machine

/-!
# How actions end

`Ends act m Q E`: the action `act`, started in the state `m`, ends in a value and a state of `Q` or
in an interrupt and a state of `E`. The lemmas follow the way actions are put together, so a proof
about an action walks through its text (`ends_bind`, `Ends.mono`).
-/

namespace Lox

section
variable {ε σ α β : Type} {x : EStateM ε σ α} {f : α → EStateM ε σ β} {s t : σ} {a : α} {e : ε}

theorem bind_ok (h : x s = .ok a t) : (x >>= f) s = f a t := by
  simp only [bind, EStateM.bind, h]

theorem bind_error (h : x s = .error e t) : (x >>= f) s = .error e t := by
  simp only [bind, EStateM.bind, h]

theorem map_ok {g : α → β} (h : x s = .ok a t) : (g <$> x) s = .ok (g a) t := by
  simp only [Functor.map, EStateM.map, h]

theorem map_error {g : α → β} (h : x s = .error e t) : (g <$> x) s = .error e t := by
  simp only [Functor.map, EStateM.map, h]

/-- A sequence that ends in a value got one from its first part. -/
theorem bind_eq_ok {b : β} (h : (x >>= f) s = .ok b t) :
    ∃ a s₁, x s = .ok a s₁ ∧ f a s₁ = .ok b t := by
  cases hx : x s with
  | ok a s₁ => exact ⟨a, s₁, rfl, (bind_ok hx).symm.trans h⟩
  | error e s₁ => rw [bind_error hx] at h; cases h

theorem ok_of_run' (h : x.run' s = some a) : ∃ t, x s = .ok a t := by
  unfold EStateM.run' EStateM.run at h
  split at h
  · rename_i b t hx
    cases h
    exact ⟨t, hx⟩
  · cases h

/-- How an action ends (module doc). -/
def Ends (x : EStateM ε σ α) (s : σ) (Q : α → σ → Prop) (E : ε → σ → Prop) : Prop :=
  match x s with
  | .ok a t => Q a t
  | .error e t => E e t

variable {Q Q' : α → σ → Prop} {R : β → σ → Prop} {E E' : ε → σ → Prop}

theorem ends_of_ok (h : x s = .ok a t) (hq : Q a t) : Ends x s Q E := by
  unfold Ends
  rw [h]
  exact hq

theorem ends_of_error (h : x s = .error e t) (he : E e t) : Ends x s Q E := by
  unfold Ends
  rw [h]
  exact he

theorem Ends.ok (hx : Ends x s Q E) (h : x s = .ok a t) : Q a t := by
  unfold Ends at hx
  rwa [h] at hx

theorem Ends.error (hx : Ends x s Q E) (h : x s = .error e t) : E e t := by
  unfold Ends at hx
  rwa [h] at hx

theorem Ends.mono (hx : Ends x s Q E) (hq : ∀ a t, x s = .ok a t → Q a t → Q' a t)
    (he : ∀ e t, E e t → E' e t) : Ends x s Q' E' := by
  cases h : x s with
  | ok a t => exact ends_of_ok h (hq a t h (hx.ok h))
  | error e t => exact ends_of_error h (he e t (hx.error h))

theorem ends_pure (hq : Q a s) : Ends (pure a) s Q E := hq

theorem ends_throw (he : E e s) : Ends (throw e : EStateM ε σ α) s Q E := he

theorem ends_bind (hx : Ends x s (fun a t => x s = .ok a t → Ends (f a) t R E) E) :
    Ends (x >>= f) s R E := by
  cases h : x s with
  | ok a t =>
    have hf := hx.ok h h
    unfold Ends
    rw [bind_ok h]
    exact hf
  | error e t => exact ends_of_error (bind_error h) (hx.error h)

theorem Ends.bind (hx : Ends x s Q E) (hf : ∀ a t, x s = .ok a t → Q a t → Ends (f a) t R E) :
    Ends (x >>= f) s R E :=
  ends_bind (hx.mono (fun a t h hq _ => hf a t h hq) fun _ _ he => he)

theorem ends_map {g : α → β} (hx : Ends x s (fun a t => R (g a) t) E) : Ends (g <$> x) s R E := by
  cases h : x s with
  | ok a t => exact ends_of_ok (map_ok h) (hx.ok h)
  | error e t => exact ends_of_error (map_error h) (hx.error h)

theorem Ends.of_map {g : α → β} (hx : Ends (g <$> x) s R E) :
    Ends x s (fun a t => R (g a) t) E := by
  cases h : x s with
  | ok a t => exact ends_of_ok h (hx.ok (map_ok h))
  | error e t => exact ends_of_error h (hx.error (map_error h))

end

/-! ## Small steps -/

namespace Exec

variable {α β : Type} (m : Machine)

@[simp] theorem get_bind (f : Machine → Exec α) : ((get : Exec Machine) >>= f) m = f m m := rfl

@[simp] theorem heap_bind (f : Heap → Exec α) : (heap >>= f) m = f m.heap m := rfl

@[simp] theorem make_bind (g : Heap → β × Heap) (f : β → Exec α) :
    (make g >>= f) m = f (g m.heap).1 { m with heap := (g m.heap).2 } := rfl

theorem make_eq {m : Machine} {g : Heap → β × Heap} {b : β} {h : Heap} (hg : g m.heap = (b, h)) :
    make g m = .ok b { m with heap := h } := by
  change EStateM.Result.ok (g m.heap).1 { m with heap := (g m.heap).2 } = _
  rw [hg]

@[simp] theorem modify_bind (g : Machine → Machine) (f : PUnit → Exec α) :
    ((modify g : Exec PUnit) >>= f) m = f .unit (g m) := rfl

@[simp] theorem pure_bind_apply (b : β) (f : β → Exec α) : ((pure b : Exec β) >>= f) m = f b m := rfl

@[simp] theorem promised_ok_bind (b : β) (f : β → Exec α) :
    (promised (.ok b) >>= f) m = f b m := rfl

@[simp] theorem promised_error_bind (b : Broken) (f : β → Exec α) :
    (promised (.error b) >>= f) m = .error (.broken b) m := rfl

end Exec

/-! ## Frames and calls -/

namespace Machine

/-- The machine inside a call. -/
def enter (m : Machine) (s : Setting) (call : Call) : Machine :=
  { m with
    calls := m.calls.push call
    log := m.log.push (.call s.path call (m.calls.push call).depth) }

end Machine

namespace Exec

variable {α : Type} {act : Exec α} {m : Machine} {Q : α → Machine → Prop}
  {E : Interrupt → Machine → Prop}

theorem ends_inFrame {frame : Id}
    (h : Ends act { m with frame } (fun a m' => Q a { m' with frame := m.frame })
      (fun i m' => E i { m' with frame := m.frame })) :
    Ends (inFrame frame act) m Q E := by
  unfold inFrame
  cases hact : act { m with frame } with
  | ok a m' => exact ends_of_ok (by simp only [hact]) (h.ok hact)
  | error i m' => exact ends_of_error (by simp only [hact]) (h.error hact)

/-- An interrupt after it has left a call. -/
def leaving (call : Call) : Interrupt → Interrupt
  | .fault f => .fault (f.leaving call)
  | i => i

/-- The machine after an interrupt has left a call. -/
def left : Interrupt → Machine → Machine
  | .fault _, m => { m with calls := m.calls.pop }
  | _, m => m

theorem asCall_ok {s : Setting} {call : Call} {a : α} {m₁ : Machine}
    (h : act (m.enter s call) = .ok a m₁) :
    asCall s call act m = .ok a { m₁ with calls := m₁.calls.pop } := by
  unfold Machine.enter at h
  simp only [asCall, h]

theorem asCall_error {s : Setting} {call : Call} {i : Interrupt} {m₁ : Machine}
    (h : act (m.enter s call) = .error i m₁) :
    asCall s call act m = .error (leaving call i) (left i m₁) := by
  unfold Machine.enter at h
  cases i <;> simp only [asCall, h, leaving, left]

theorem ends_asCall {s : Setting} {call : Call}
    (h : Ends act (m.enter s call) (fun a m' => Q a { m' with calls := m'.calls.pop })
      (fun i m' => E (leaving call i) (left i m'))) :
    Ends (asCall s call act) m Q E := by
  cases hact : act (m.enter s call) with
  | ok a m' => exact ends_of_ok (asCall_ok hact) (h.ok hact)
  | error i m' => exact ends_of_error (asCall_error hact) (h.error hact)

end Exec

end Lox

import Lox.Proofs.Joining
import Lox.Proofs.Simulation

/-!
# Runs abreast

Two machines that stand in the globals and make up a balanced world are `Abreast`: they have printed
the same and show the same globals. Alike statements keep them abreast (`Abreast.executeEach`), and so
do alike programs, which end alike (`Abreast.run`). A machine that a session can reach is abreast of
itself (`abreast_after`).
-/

namespace Lox

/-! ## Endings -/

/-- Two programs end in the same way. -/
inductive Ending.Alike (K : Likeness) : Ending → Ending → Prop
  | finished : Alike K .finished .finished
  | fault {f f'} (h : f.Alike K f') : Alike K (.fault f) (.fault f')
  | broken {b b'} (h : K.names → b' = b) : Alike K (.broken b) (.broken b')
  | outOfFuel : Alike K .outOfFuel .outOfFuel

/-- Endings that are the same but for the lines of a fault and of its trace. -/
def Ending.SameButLines : Ending → Ending → Prop
  | .fault f, .fault f' => f'.reason = f.reason ∧ f'.trace.map Call.name = f.trace.map Call.name
  | e, e' => e' = e

/-- Endings that are the same for whoever reads the report of a fault: its reason, its line and its
trace. -/
def Ending.Same : Ending → Ending → Prop
  | .fault f, .fault f' =>
    f'.reason = f.reason ∧ f'.token.line = f.token.line ∧ f'.trace = f.trace
  | e, e' => e' = e

theorem Ending.Alike.sameButLines {K : Likeness} (hK : K.names) {e e' : Ending}
    (h : e.Alike K e') : e.SameButLines e' := by
  cases h with
  | finished | outOfFuel => rfl
  | fault h => exact ⟨h.reason, h.calls⟩
  | broken h => exact congrArg Ending.broken (h hK)

theorem Ending.Alike.same {K : Likeness} (hK : K.lines) {e e' : Ending} (h : e.Alike K e')
    (hb : K.names ∨ ∀ b, e ≠ .broken b) : e.Same e' := by
  cases h with
  | finished | outOfFuel => rfl
  | fault h => exact ⟨h.reason, h.level hK, h.lines hK⟩
  | broken h =>
    rcases hb with hb | hb
    · exact congrArg Ending.broken (h hb)
    · exact absurd rfl (hb _)

theorem Interrupt.Alike.ending {K : Likeness} {i i' : Interrupt} (h : i.Alike K i') :
    i.ending.Alike K i'.ending := by
  cases h with
  | fault h => exact .fault h
  | broken h => exact .broken h
  | outOfFuel => exact .outOfFuel

namespace Session

variable {K : Likeness} {s : Setting} {fuel : Nat} {m m' m₁ m₁' : Machine}

/-! ## Machines -/

/-- Two machines in the globals that make up a balanced world. -/
def Abreast (K : Likeness) (m m' : Machine) : Prop :=
  m.frame = globals ∧ ∃ names, World.Balanced K ⟨m, m', names⟩

theorem Abreast.printed (h : Abreast K m m') : m'.printed = m.printed := by
  obtain ⟨-, names, hw⟩ := h
  exact hw.printed

theorem Abreast.globalTexts (h : Abreast K m m') : m'.globalTexts = m.globalTexts := by
  obtain ⟨-, names, hw⟩ := h
  exact hw.globalTexts

theorem Abreast.right (h : Abreast K m m') : m'.frame = globals := by
  obtain ⟨hf, names, hw⟩ := h
  exact hw.frame.trans hf

/-- Logs play no part. -/
theorem Abreast.logged (h : Abreast K m m') (log log' : Array Event) :
    Abreast K { m with log } { m' with log := log' } := by
  obtain ⟨hf, names, hw⟩ := h
  have hs : World.Balanced K ⟨{ m with log }, { m' with log := log' }, names⟩ :=
    (hw.of_same_heaps { m with log } { m' with log := log' } rfl rfl hw.frame hw.printed hw.clock).1
  exact ⟨hf, names, hs⟩

/-- Machines in the globals whose heaps are as they were. -/
theorem Abreast.of_balanced {w : World} (hf : w.left.frame = globals) (hw : w.Balanced K) :
    Abreast K w.left w.right := ⟨hf, w.names, hw⟩

/-! ## Running -/

section
variable (hst : s.scoping = .static) (hn : ∀ native ∈ s.natives, native.Honest)
include hst hn

/-- Alike statements keep machines abreast. -/
theorem Abreast.executeEach (h : Abreast K m m') (fuel : Nat) {ts ts' : List Stmt}
    (ht : Stmt.AlikeAll K [] ts ts') :
    (∃ m₁ m₁', Session.executeEach s fuel ts m = .ok () m₁ ∧
      Session.executeEach s fuel ts' m' = .ok () m₁' ∧ Abreast K m₁ m₁') ∨
    ∃ i i' m₁ m₁', Session.executeEach s fuel ts m = .error i m₁ ∧
      Session.executeEach s fuel ts' m' = .error i' m₁' ∧ i.Alike K i' ∧ Abreast K m₁ m₁' := by
  obtain ⟨hf, names, hw⟩ := h
  have hρ : World.Around ⟨m, m', names⟩ m.frame [] := by
    rw [hf]
    exact .globals
  rcases (paired_executeEach hst hn fuel hw hρ ht).ends with
    ⟨_, w₁, hx, hx', hg, hl, -⟩ | ⟨i, i', w₁, hx, hx', hg, hl, hi⟩
  · exact .inl ⟨w₁.left, w₁.right, hx, hx', .of_balanced (hl.frame.trans hf) hg⟩
  · exact .inr ⟨i, i', w₁.left, w₁.right, hx, hx', hi, .of_balanced (hl.frame.trans hf) hg⟩

/-- Accepted sources with alike programs end alike and keep machines abreast. -/
theorem Abreast.run (h : Abreast K m m') {source source' : String}
    (ha : (Program.compile source).Accepted) (ha' : (Program.compile source').Accepted)
    (ht : Stmt.AlikeAll K [] (Program.compile source).bound (Program.compile source').bound) :
    (Session.run s fuel source {} m).ending.Alike K (Session.run s fuel source' {} m').ending ∧
      Abreast K (Session.run s fuel source {} m).machine
        (Session.run s fuel source' {} m').machine := by
  have hbegun : Abreast K (begun s source m) (begun s source' m') := h.logged _ _
  rcases hbegun.executeEach hst hn fuel ht with
    ⟨m₁, m₁', hx, hx', h₁⟩ | ⟨i, i', m₁, m₁', hx, hx', hi, h₁⟩
  · rw [run_of_ok ha hx, run_of_ok ha' hx']
    exact ⟨.finished, h₁⟩
  · rw [run_of_error ha h₁.1 hx, run_of_error ha' h₁.right hx']
    exact ⟨hi.ending, h₁⟩

end

/-! ## Sessions -/

/-- A machine before its first program is abreast of itself: its only values are natives. -/
theorem abreast_initial (natives : List Native) (clock : Clock) :
    Abreast K (.initial natives clock) (.initial natives clock) := by
  have hvars : ∀ f, ∀ e ∈ (Machine.initial natives clock).heap.vars f, e.2.isPlain = true := by
    intro f e he
    have he : e ∈ (Heap.newFrame {} ⟨_, none⟩).2.vars f := he
    rw [Heap.vars_newFrame] at he
    split at he
    · rcases Table.mem_insertAll he with he | he
      · cases he
      · obtain ⟨⟨native, id⟩, -, rfl⟩ := List.mem_map.1 he
        rfl
    · simp [Heap.vars] at he
  refine ⟨rfl, fun _ => .refl String, rfl, rfl, rfl, fun i => ?_, Nat.zero_lt_one,
    fun _ => Renaming.fair_refl K, rfl, rfl, rfl, rfl,
    fun f e he => World.has_of_isPlain (hvars f e he), fun o e he => ?_, fun c e he => ?_⟩
  · have hrename : (fun f : Frame => f.rename (.refl String)) = id := by
      funext f
      simp only [Frame.rename, Table.rename_refl, id]
    rw [hrename, Option.map_id_fun, id]
  · simp [Machine.initial, Heap.newFrame, Heap.fields] at he
  · simp [Machine.initial, Heap.newFrame, Heap.methods] at he

/-- Every machine that a session reaches is abreast of itself. -/
theorem abreast_after (hst : s.scoping = .static) (hn : ∀ native ∈ s.natives, native.Honest)
    (K : Likeness) (clock : Clock) (runs : List (Nat × String)) :
    Abreast K (after s clock runs) (after s clock runs) := by
  induction runs using List.reverseRecOn with
  | nil => exact abreast_initial s.natives clock
  | append_singleton runs r ih =>
    obtain ⟨fuel, source⟩ := r
    rw [after_append]
    by_cases ha : (Program.compile source).Accepted
    · exact (ih.run hst hn ha ha (Program.alikeAll_bound K ha)).2
    · rw [(run_of_rejected s fuel ha _).2]
      exact ih.logged _ _

end Session

end Lox

import Lox.Proofs.Alike

/-!
# Worlds

A `World` is two machines with a renaming for each frame. It is balanced (`World.Balanced`) if the frames
differ by these renamings only and every function that a value can reach has the same frame and
alike code on both sides. Then both machines show the same globals (`World.Balanced.globalTexts`), and
every operation on the heap, done on both sides, leads to a balanced later world (`World.Balanced.newFrame`,
`World.Balanced.define`, …).
-/

namespace Lox

theorem Heap.methods_newClass (h : Heap) (C : Class) (c : Id) :
    (h.newClass C).2.methods c = if c = h.classes.size then C.methods else h.methods c := by
  simp only [Heap.methods, Heap.newClass, Array.getElem?_push]
  split <;> rfl

/-! ## Two machines -/

/-- The frame with its variables renamed. -/
def Frame.rename (ν : Renaming) (f : Frame) : Frame := ⟨f.vars.rename ν, f.parent⟩

/-- Two machines, and what the variables of each frame of the left one are called on the right. -/
structure World where
  left : Machine
  right : Machine
  names : Id → Renaming

namespace World

/-- The frames from `f` outwards have these renamings, up to the globals. -/
inductive Around (w : World) : Id → List Renaming → Prop
  | globals : Around w globals []
  | scope {f p ν ρ} (hp : w.left.heap.parent? f = some p) (hν : w.names f = ν)
      (hρ : Around w p ρ) : Around w f (ν :: ρ)

section
variable (K : Likeness) (w : World)

/-- The function `f` has the same frame on both sides, and alike code there. Between the frame and
the code may come more scopes, with the renamings `inner`. -/
def Closes (inner : List Renaming) (f : Id) : Prop :=
  ∃ c c' ρ, w.left.heap.functions[f]? = some c ∧ w.right.heap.functions[f]? = some c' ∧
    c'.frame = c.frame ∧ c'.isInitializer = c.isInitializer ∧ w.Around c.frame ρ ∧
    Stmt.FunAlike K (inner ++ ρ) c.decl c'.decl

/-- A value that means the same on both sides. -/
def Has : Value → Prop
  | .function f => w.Closes K [] f
  | _ => True

variable {K w} in
theorem has_of_isPlain {v : Value} (hv : v.isPlain = true) : w.Has K v := by
  cases v with
  | function f => cases hv
  | _ => trivial

/-- A world whose two machines are alike (module doc). -/
structure Balanced : Prop where
  frame : w.right.frame = w.left.frame
  printed : w.right.printed = w.left.printed
  clock : w.right.clock = w.left.clock
  frames : ∀ i : Id, w.right.heap.frames[i]? = w.left.heap.frames[i]?.map (·.rename (w.names i))
  started : globals < w.left.heap.frames.size
  fair : ∀ i, (w.names i).Fair K
  globals : w.names globals = .refl String
  functions : w.right.heap.functions.size = w.left.heap.functions.size
  classes : w.right.heap.classes = w.left.heap.classes
  instances : w.right.heap.instances = w.left.heap.instances
  values : ∀ f, ∀ e ∈ w.left.heap.vars f, w.Has K e.2
  fields : ∀ o, ∀ e ∈ w.left.heap.fields o, w.Has K e.2
  /-- A method has a frame of `this` between its own frame and its code. -/
  methods : ∀ c, ∀ e ∈ w.left.heap.methods c, w.Closes K [.refl String] e.2

end

/-- A world with more in it: frames keep their places and renamings, functions stay as they are. -/
structure Grows (w w₁ : World) : Prop where
  parents : ∀ {f p : Id}, w.left.heap.parent? f = some p →
    w₁.left.heap.parent? f = some p ∧ w₁.names f = w.names f
  left : ∀ {i : Id} {c : Closure}, w.left.heap.functions[i]? = some c →
    w₁.left.heap.functions[i]? = some c
  right : ∀ {i : Id} {c : Closure}, w.right.heap.functions[i]? = some c →
    w₁.right.heap.functions[i]? = some c

namespace Grows

theorem trans {w w₁ w₂ : World} (h : w.Grows w₁) (h' : w₁.Grows w₂) : w.Grows w₂ where
  parents hp := by
    obtain ⟨h1, hn⟩ := h.parents hp
    obtain ⟨h2, hn'⟩ := h'.parents h1
    exact ⟨h2, hn'.trans hn⟩
  left hc := h'.left (h.left hc)
  right hc := h'.right (h.right hc)

variable {K : Likeness} {w w₁ : World} (h : w.Grows w₁)
include h

theorem around {f : Id} {ρ : List Renaming} (hf : w.Around f ρ) : w₁.Around f ρ := by
  induction hf with
  | globals => exact .globals
  | scope hp hν _ ih =>
    obtain ⟨hp', hn⟩ := h.parents hp
    exact .scope hp' (hn.trans hν) ih

theorem closes {inner : List Renaming} {f : Id} (hf : w.Closes K inner f) :
    w₁.Closes K inner f := by
  obtain ⟨c, c', ρ, hc, hc', hframe, hinit, hρ, hd⟩ := hf
  exact ⟨c, c', ρ, h.left hc, h.right hc', hframe, hinit, h.around hρ, hd⟩

theorem has {v : Value} (hv : w.Has K v) : w₁.Has K v := by
  cases v with
  | function f => exact h.closes hv
  | _ => trivial

end Grows

/-- A later world, in the same frame. -/
structure Later (w w₁ : World) : Prop extends w.Grows w₁ where
  frame : w₁.left.frame = w.left.frame

namespace Later

theorem refl (w : World) : w.Later w := ⟨⟨fun h => ⟨h, rfl⟩, id, id⟩, rfl⟩

theorem trans {w w₁ w₂ : World} (h : w.Later w₁) (h' : w₁.Later w₂) : w.Later w₂ :=
  ⟨h.toGrows.trans h'.toGrows, h'.frame.trans h.frame⟩

/-- The code of the current frame stays where it is. -/
theorem here {w w₁ : World} (h : w.Later w₁) {ρ : List Renaming} (hf : w.Around w.left.frame ρ) :
    w₁.Around w₁.left.frame ρ := by
  rw [h.frame]
  exact h.around hf

end Later

/-! ## What both sides of a balanced world find -/

namespace Balanced

variable {K : Likeness} {w : World} (hw : w.Balanced K)
include hw

theorem parent? (f : Id) : w.right.heap.parent? f = w.left.heap.parent? f := by
  unfold Heap.parent?
  rw [hw.frames f]
  cases w.left.heap.frames[f]? <;> rfl

theorem vars (f : Id) : w.right.heap.vars f = (w.left.heap.vars f).rename (w.names f) := by
  unfold Heap.vars
  rw [hw.frames f]
  cases w.left.heap.frames[f]? <;> rfl

theorem frames_size : w.right.heap.frames.size = w.left.heap.frames.size := by
  have hnone : ∀ i : Nat, w.right.heap.frames.size ≤ i ↔ w.left.heap.frames.size ≤ i := by
    intro i
    rw [← Array.getElem?_eq_none_iff, ← Array.getElem?_eq_none_iff, hw.frames i,
      Option.map_eq_none_iff]
  exact Nat.le_antisymm ((hnone _).2 (Nat.le_refl _)) ((hnone _).1 (Nat.le_refl _))

theorem ancestor? (f : Id) (k : Nat) :
    w.right.heap.ancestor? f k = w.left.heap.ancestor? f k := by
  induction k generalizing f with
  | zero => rfl
  | succ k ih =>
    unfold Heap.ancestor?
    rw [hw.parent? f]
    cases w.left.heap.parent? f with
    | none => rfl
    | some p => exact ih p

/-- A renamed name is found where the name is. -/
theorem lookup (f : Id) (name : String) :
    (w.right.heap.vars f).lookup (w.names f name) = (w.left.heap.vars f).lookup name := by
  rw [hw.vars f, Table.lookup_rename]

theorem globalVars : w.right.heap.vars Lox.globals = w.left.heap.vars Lox.globals := by
  rw [hw.vars, hw.globals, Table.rename_refl]

theorem findMethod? (c : Id) (name : String) :
    w.right.heap.findMethod? c name = w.left.heap.findMethod? c name :=
  Heap.findMethod?_congr hw.classes c name

omit hw in
theorem Closes.same {inner : List Renaming} {f : Id} (hf : w.Closes K inner f) :
    w.right.heap.functionName f = w.left.heap.functionName f ∧
      w.right.heap.functionArity f = w.left.heap.functionArity f := by
  obtain ⟨c, c', ρ, hc, hc', -, -, -, hd⟩ := hf
  obtain ⟨hn, ν, -, hp, -⟩ := hd.parts
  have hl := congrArg List.length hp
  simp only [List.length_map] at hl
  simp only [Heap.functionName, Heap.functionArity, hc, hc', Option.map_some, Option.getD_some, hn,
    hl, and_self]

theorem text {v : Value} (hv : w.Has K v) : w.right.heap.text v = w.left.heap.text v := by
  have hname : w.right.heap.className = w.left.heap.className := by
    funext c
    simp only [Heap.className, hw.classes]
  have hclass : w.right.heap.classOf? = w.left.heap.classOf? := by
    funext o
    simp only [Heap.classOf?, hw.instances]
  cases v with
  | function f => simp only [Heap.text, (Closes.same hv).1]
  | cls c => exact congrFun hname c
  | object o => simp only [Heap.text, hname, hclass]
  | nil | bool b | number n | string s | native id => rfl

/-- The globals are the same, and so are their texts. -/
theorem globalTexts : w.right.globalTexts = w.left.globalTexts := by
  unfold Machine.globalTexts
  rw [hw.globalVars]
  refine List.map_congr_left fun (name, v) he => ?_
  have hm : (name, v) ∈ w.left.heap.vars Lox.globals := List.mem_mergeSort.1 he
  exact congrArg (name, ·) (hw.text (hw.values _ _ hm))

end Balanced

/-- The frame that a bound name leads to has the renaming of its scope. -/
theorem Around.ancestor? {w : World} {f : Id} {ρ : List Renaming} (hf : w.Around f ρ) {k : Nat}
    {ν : Renaming} (hk : ρ[k]? = some ν) :
    ∃ g, w.left.heap.ancestor? f k = some g ∧ w.names g = ν := by
  induction hf generalizing k with
  | globals => cases hk
  | @scope f p μ ρ hp hμ _ ih =>
    cases k with
    | zero =>
      cases hk
      exact ⟨f, rfl, hμ⟩
    | succ k =>
      rw [Heap.ancestor?_succ hp]
      exact ih hk

/-- The current frame has the renaming of the innermost scope. -/
theorem Around.innermost {K : Likeness} {w : World} (hw : w.Balanced K) {f : Id} {ρ : List Renaming}
    (hf : w.Around f ρ) : innermost ρ = w.names f := by
  cases hf with
  | globals => exact hw.globals.symm
  | scope hp hν hρ => exact hν.symm

/-! ## Every operation, done on both sides -/


/-- The world with other heaps. -/
def heaps (w : World) (h h' : Heap) (names : Id → Renaming) : World :=
  ⟨{ w.left with heap := h }, { w.right with heap := h' }, names⟩

/-- The world with a new frame on both sides, under the renaming `ν`. -/
def withFrame (w : World) (ν : Renaming) (vars : Table Value) (parent : Option Id) : World :=
  w.heaps (w.left.heap.newFrame ⟨vars, parent⟩).2 (w.right.heap.newFrame ⟨vars.rename ν, parent⟩).2
    (Function.update w.names w.left.heap.frames.size ν)

/-- The world with a new function on both sides. -/
def withFunction (w : World) (c c' : Closure) : World :=
  w.heaps (w.left.heap.newFunction c).2 (w.right.heap.newFunction c').2 w.names

namespace Balanced

variable {K : Likeness} {w : World} (hw : w.Balanced K)
include hw

/-- Machines with the same heaps. Stacks of calls and logs play no part. -/
theorem of_same_heaps (m m' : Machine) (h : m.heap = w.left.heap) (h' : m'.heap = w.right.heap)
    (hf : m'.frame = m.frame) (hp : m'.printed = m.printed) (hc : m'.clock = m.clock) :
    Balanced K ⟨m, m', w.names⟩ ∧ w.Grows ⟨m, m', w.names⟩ := by
  obtain ⟨heap, frame, calls, printed, log, clock⟩ := m
  obtain ⟨heap', frame', calls', printed', log', clock'⟩ := m'
  cases h
  cases h'
  have hg : w.Grows ⟨⟨w.left.heap, frame, calls, printed, log, clock⟩,
      ⟨w.right.heap, frame', calls', printed', log', clock'⟩, w.names⟩ :=
    ⟨fun hp => ⟨hp, rfl⟩, id, id⟩
  exact ⟨⟨hf, hp, hc, hw.frames, hw.started, hw.fair, hw.globals, hw.functions, hw.classes,
    hw.instances, fun f e he => hg.has (hw.values f e he), fun o e he => hg.has (hw.fields o e he),
    fun c e he => hg.closes (hw.methods c e he)⟩, hg⟩

/-- Heaps in which only frames have changed. -/
theorem of_frames {F F' : Array Frame} {names : Id → Renaming}
    (hl : w.Later (w.heaps { w.left.heap with frames := F } { w.right.heap with frames := F' } names))
    (hF : ∀ i : Id, F'[i]? = F[i]?.map (·.rename (names i))) (hs : Lox.globals < F.size)
    (hfair : ∀ i, (names i).Fair K) (hg : names Lox.globals = .refl String)
    (hv : ∀ f, ∀ e ∈ Heap.vars { w.left.heap with frames := F } f,
      e ∈ w.left.heap.vars f ∨ w.Has K e.2) :
    (w.heaps { w.left.heap with frames := F } { w.right.heap with frames := F' } names).Balanced K where
  frame := hw.frame
  printed := hw.printed
  clock := hw.clock
  frames := hF
  started := hs
  fair := hfair
  globals := hg
  functions := hw.functions
  classes := hw.classes
  instances := hw.instances
  values f e he := hl.has ((hv f e he).elim (hw.values f e) id)
  fields o e he := hl.has (hw.fields o e he)
  methods c e he := hl.closes (hw.methods c e he)

/-- Heaps in which no frame has changed. -/
theorem of_same_frames {h h' : Heap} (hl : w.Later (w.heaps h h' w.names))
    (hF : h.frames = w.left.heap.frames) (hF' : h'.frames = w.right.heap.frames)
    (hs : h'.functions.size = h.functions.size) (hc : h'.classes = h.classes)
    (hi : h'.instances = h.instances)
    (hf : ∀ o, ∀ e ∈ h.fields o, e ∈ w.left.heap.fields o ∨ w.Has K e.2)
    (hm : ∀ c, ∀ e ∈ h.methods c, e ∈ w.left.heap.methods c ∨ w.Closes K [.refl String] e.2) :
    (w.heaps h h' w.names).Balanced K where
  frame := hw.frame
  printed := hw.printed
  clock := hw.clock
  frames i := by
    change h'.frames[i]? = h.frames[i]?.map _
    rw [hF, hF']
    exact hw.frames i
  started := by
    change _ < h.frames.size
    rw [hF]
    exact hw.started
  fair := hw.fair
  globals := hw.globals
  functions := hs
  classes := hc
  instances := hi
  values f e he := by
    have he : e ∈ h.vars f := he
    rw [show h.vars f = w.left.heap.vars f by simp only [Heap.vars, hF]] at he
    exact hl.has (hw.values f e he)
  fields o e he := hl.has ((hf o e he).elim (hw.fields o e) id)
  methods c e he := hl.closes ((hm c e he).elim (hw.methods c e) id)

theorem newFrame {ν : Renaming} (hν : ν.Fair K) {vars : Table Value}
    (hv : ∀ e ∈ vars, w.Has K e.2) (parent : Option Id) :
    (w.withFrame ν vars parent).Balanced K ∧ w.Later (w.withFrame ν vars parent) := by
  have hl : w.Later (w.withFrame ν vars parent) := by
    refine ⟨⟨fun {f p} hp => ?_, id, id⟩, rfl⟩
    obtain ⟨frame, hf, -⟩ := Heap.parent?_eq_some hp
    have hlt := (Array.getElem?_eq_some_iff.1 hf).1
    exact ⟨(Heap.grows_newFrame _ _).parent? hp, Function.update_of_ne (Nat.ne_of_lt hlt) _ _⟩
  refine ⟨hw.of_frames hl (fun i => ?_) ?_ (fun i => ?_) ?_ (fun f e he => ?_), hl⟩
  · rw [Array.getElem?_push, Array.getElem?_push, hw.frames_size]
    by_cases hi : i = w.left.heap.frames.size
    · rw [if_pos hi, if_pos hi, hi, Function.update_self]
      rfl
    · rw [if_neg hi, if_neg hi, Function.update_of_ne hi]
      exact hw.frames i
  · rw [Array.size_push]
    exact Nat.lt_succ_of_lt hw.started
  · by_cases hi : i = w.left.heap.frames.size
    · rw [hi, Function.update_self]
      exact hν
    · rw [Function.update_of_ne hi]
      exact hw.fair i
  · rw [Function.update_of_ne (Nat.ne_of_lt hw.started)]
    exact hw.globals
  · have he : e ∈ (w.left.heap.newFrame ⟨vars, parent⟩).2.vars f := he
    rw [Heap.vars_newFrame] at he
    split at he
    · exact .inr (hv e he)
    · exact .inl he

theorem define (g : Id) (name : String) {v : Value} (hv : w.Has K v) :
    let w₁ := w.heaps (w.left.heap.define g name v) (w.right.heap.define g (w.names g name) v) w.names
    w₁.Balanced K ∧ w.Later w₁ := by
  intro w₁
  have hl : w.Later w₁ := ⟨⟨fun hp => ⟨(Heap.parent?_define ..).trans hp, rfl⟩, id, id⟩, rfl⟩
  refine ⟨hw.of_frames hl (fun i => ?_) ?_ hw.fair hw.globals (fun f e he => ?_), hl⟩
  · rw [Array.getElem?_modify, Array.getElem?_modify, hw.frames i]
    by_cases hi : g = i
    · subst hi
      rw [if_pos rfl, if_pos rfl]
      cases w.left.heap.frames[g]? with
      | none => rfl
      | some frame => simp only [Option.map_some, Frame.rename, Table.insert_rename]
    · rw [if_neg hi, if_neg hi]
  · rw [Array.size_modify]
    exact hw.started
  · have he : e ∈ (w.left.heap.define g name v).vars f := he
    rw [Heap.vars_define] at he
    split at he
    · rcases Table.mem_insert he with he | rfl
      · exact .inl he
      · exact .inr hv
    · exact .inl he

/-- What stands around a new frame. -/
theorem around_withFrame {ν : Renaming} (hν : ν.Fair K) {vars : Table Value}
    (hv : ∀ e ∈ vars, w.Has K e.2) {p : Id} {ρ : List Renaming} (hρ : w.Around p ρ) :
    (w.withFrame ν vars (some p)).Around w.left.heap.frames.size (ν :: ρ) :=
  .scope (Heap.parent?_newFrame_self w.left.heap ⟨vars, some p⟩) (Function.update_self ..)
    ((hw.newFrame hν hv (some p)).2.around hρ)

theorem newFunction (c c' : Closure) :
    (w.withFunction c c').Balanced K ∧ w.Later (w.withFunction c c') := by
  have hl : w.Later (w.withFunction c c') :=
    ⟨⟨fun hp => ⟨hp, rfl⟩, (Heap.grows_newFunction _ c).functions,
      (Heap.grows_newFunction _ c').functions⟩, rfl⟩
  refine ⟨hw.of_same_frames hl rfl rfl ?_ hw.classes hw.instances (fun _ _ he => .inl he)
    (fun _ _ he => .inl he), hl⟩
  simp only [Heap.newFunction, Array.size_push, hw.functions]

/-- A new function closes over its frame on both sides. -/
theorem closes_newFunction {c c' : Closure} {inner ρ : List Renaming} (hframe : c'.frame = c.frame)
    (hinit : c'.isInitializer = c.isInitializer) (hρ : w.Around c.frame ρ)
    (hd : Stmt.FunAlike K (inner ++ ρ) c.decl c'.decl) :
    (w.withFunction c c').Closes K inner w.left.heap.functions.size := by
  refine ⟨c, c', ρ, ?_, ?_, hframe, hinit, (hw.newFunction c c').2.around hρ, hd⟩
  · exact Array.getElem?_push_size
  · rw [← hw.functions]
    exact Array.getElem?_push_size

theorem newClass {C : Class} (hC : ∀ e ∈ C.methods, w.Closes K [.refl String] e.2) :
    let w₁ := w.heaps (w.left.heap.newClass C).2 (w.right.heap.newClass C).2 w.names
    w₁.Balanced K ∧ w.Later w₁ := by
  intro w₁
  have hl : w.Later w₁ := ⟨⟨fun hp => ⟨hp, rfl⟩, id, id⟩, rfl⟩
  refine ⟨hw.of_same_frames hl rfl rfl hw.functions ?_ hw.instances (fun _ _ he => .inl he)
    (fun c e he => ?_), hl⟩
  · simp only [Heap.newClass, hw.classes]
  · rw [Heap.methods_newClass] at he
    split at he
    · exact .inr (hC e he)
    · exact .inl he

theorem newInstance (c : Id) :
    let w₁ := w.heaps (w.left.heap.newInstance c).2 (w.right.heap.newInstance c).2 w.names
    w₁.Balanced K ∧ w.Later w₁ := by
  intro w₁
  have hl : w.Later w₁ := ⟨⟨fun hp => ⟨hp, rfl⟩, id, id⟩, rfl⟩
  refine ⟨hw.of_same_frames hl rfl rfl hw.functions hw.classes ?_ (fun o e he => ?_)
    (fun _ _ he => .inl he), hl⟩
  · simp only [Heap.newInstance, hw.instances]
  · rw [Heap.fields_newInstance] at he
    split at he
    · cases he
    · exact .inl he

theorem setField (o : Id) (name : String) {v : Value} (hv : w.Has K v) :
    let w₁ := w.heaps (w.left.heap.setField o name v) (w.right.heap.setField o name v) w.names
    w₁.Balanced K ∧ w.Later w₁ := by
  intro w₁
  have hl : w.Later w₁ := ⟨⟨fun hp => ⟨hp, rfl⟩, id, id⟩, rfl⟩
  refine ⟨hw.of_same_frames hl rfl rfl hw.functions hw.classes ?_ (fun i e he => ?_)
    (fun _ _ he => .inl he), hl⟩
  · simp only [Heap.setField, hw.instances]
  · rw [Heap.fields_setField] at he
    split at he
    · rcases Table.mem_insert he with he | rfl
      · exact .inl he
      · exact .inr hv
    · exact .inl he

/-- A method bound to an instance on both sides is a function that both sides can run. -/
theorem bindMethod {f : Id} (hf : w.Closes K [.refl String] f) (o : Id) :
    ∃ names, (w.right.heap.bindMethod f o).1 = (w.left.heap.bindMethod f o).1 ∧
      let w₁ := w.heaps (w.left.heap.bindMethod f o).2 (w.right.heap.bindMethod f o).2 names
      w₁.Balanced K ∧ w.Later w₁ ∧ w₁.Has K (.function (w.left.heap.bindMethod f o).1) := by
  obtain ⟨c, c', ρ, hc, hc', hframe, hinit, hρ, hd⟩ := hf
  have hthis : ∀ e ∈ [("this", Value.object o)], w.Has K e.2 := by
    intro e he
    cases List.mem_singleton.1 he
    trivial
  obtain ⟨hg, hl⟩ := hw.newFrame (Renaming.fair_refl K) hthis (some c.frame)
  obtain ⟨hg', hl'⟩ := hg.newFunction { c with frame := w.left.heap.frames.size }
    { c' with frame := w.left.heap.frames.size }
  rw [Heap.bindMethod_eq hc, Heap.bindMethod_eq hc', hframe, hw.frames_size, hw.functions]
  refine ⟨_, rfl, hg', hl.trans hl', ?_⟩
  have hρ' := hw.around_withFrame (Renaming.fair_refl K) hthis hρ
  exact hg.closes_newFunction rfl hinit hρ' hd

/-- Methods made on both sides, one after the other. -/
theorem addMethods {frame : Id} {ρ : List Renaming} (hρ : w.Around frame ρ)
    {ds ds' : List (FunDecl Stmt)} (hd : Stmt.FunAlikeAll K (.refl String :: ρ) ds ds')
    {table : Table Id} (ht : ∀ e ∈ table, w.Closes K [.refl String] e.2) :
    let r := ds.foldl (Heap.addMethod frame) (table, w.left.heap)
    let r' := ds'.foldl (Heap.addMethod frame) (table, w.right.heap)
    r'.1 = r.1 ∧ (w.heaps r.2 r'.2 w.names).Balanced K ∧ w.Later (w.heaps r.2 r'.2 w.names) ∧
      ∀ e ∈ r.1, (w.heaps r.2 r'.2 w.names).Closes K [.refl String] e.2 := by
  induction ds generalizing ds' w table with
  | nil =>
    cases hd with
    | nil => exact ⟨rfl, hw, .refl w, ht⟩
  | cons d ds ih =>
    cases hd with
    | @cons _ _ d' _ ds' h hs =>
      obtain ⟨hg, hl⟩ := hw.newFunction ⟨d, frame, d.isInitializer⟩ ⟨d', frame, d'.isInitializer⟩
      have hinit : d'.isInitializer = d.isInitializer := by
        simp only [FunDecl.isInitializer, h.parts.1]
      have ht' : ∀ e ∈ table.insert d.name.lexeme w.left.heap.functions.size,
          (w.withFunction ⟨d, frame, d.isInitializer⟩ ⟨d', frame, d'.isInitializer⟩).Closes K
            [.refl String] e.2 := by
        intro e he
        rcases Table.mem_insert he with he | rfl
        · exact hl.closes (ht e he)
        · exact hw.closes_newFunction rfl hinit hρ h
      obtain ⟨htable, hg', hl', hm⟩ := ih hg (hl.around hρ) hs ht'
      have hsame : Heap.addMethod frame (table, w.right.heap) d' =
          (table.insert d.name.lexeme w.left.heap.functions.size,
            (w.right.heap.newFunction ⟨d', frame, d'.isInitializer⟩).2) := by
        rw [← h.parts.1, ← hw.functions]
        rfl
      rw [List.foldl_cons, List.foldl_cons, hsame]
      exact ⟨htable, hg', hl.trans hl', hm⟩

/-- The methods of a class, made on both sides. -/
theorem newMethods {frame : Id} {ρ : List Renaming} (hρ : w.Around frame ρ)
    {ds ds' : List (FunDecl Stmt)} (hd : Stmt.FunAlikeAll K (.refl String :: ρ) ds ds') :
    (w.right.heap.newMethods frame ds').1 = (w.left.heap.newMethods frame ds).1 ∧
      let w₁ := w.heaps (w.left.heap.newMethods frame ds).2 (w.right.heap.newMethods frame ds').2
        w.names
      w₁.Balanced K ∧ w.Later w₁ ∧
        ∀ e ∈ (w.left.heap.newMethods frame ds).1, w₁.Closes K [.refl String] e.2 :=
  hw.addMethods hρ hd (fun e he => by cases he)

end Balanced

end World

end Lox

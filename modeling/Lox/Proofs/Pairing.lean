import Lox.Proofs.World

/-!
# Actions in step

`Paired K x x' w Q`: started in the two machines of the world `w`, the actions `x` and `x'` end in
the same way, with the same value or with interrupts that are alike, and their machines make up a
balanced later world; a value and its world are in `Q`. The lemmas follow the way actions are put
together (`paired_bind`, `paired_inFrame`, `paired_asCall`), and each single action is paired with
itself or with the same action on an alike reference (`paired_read`, `paired_write`, …).
-/

namespace Lox

open Exec Eval

/-! ## Interrupts -/

/-- Two faults of the same kind, met in the same calls. -/
structure Fault.Alike (K : Likeness) (f f' : Fault) : Prop where
  level : f.token.Level K f'.token
  reason : f'.reason = f.reason
  calls : f'.trace.map Call.name = f.trace.map Call.name
  lines : K.lines → f'.trace = f.trace

inductive Interrupt.Alike (K : Likeness) : Interrupt → Interrupt → Prop
  | fault {f f'} (h : f.Alike K f') : Alike K (.fault f) (.fault f')
  | broken {b b'} (h : K.names → b' = b) : Alike K (.broken b) (.broken b')
  | outOfFuel : Alike K .outOfFuel .outOfFuel

/-! ## Pairs of actions -/

section
variable {K : Likeness} {α β : Type} {x x' : Exec α} {f f' : α → Exec β} {w w₁ : World}
  {Q Q' : α → World → Prop} {R : β → World → Prop} {a : α} {i i' : Interrupt}

/-- Two actions end alike (module doc). -/
def Paired (K : Likeness) (x x' : Exec α) (w : World) (Q : α → World → Prop) : Prop :=
  match x w.left, x' w.right with
  | .ok a m, .ok a' m' =>
    a' = a ∧ ∃ names, World.Balanced K ⟨m, m', names⟩ ∧ w.Later ⟨m, m', names⟩ ∧ Q a ⟨m, m', names⟩
  | .error i m, .error i' m' =>
    i.Alike K i' ∧ ∃ names, World.Balanced K ⟨m, m', names⟩ ∧ w.Later ⟨m, m', names⟩
  | _, _ => False

theorem paired_of_ok (w₁ : World) (h : x w.left = .ok a w₁.left) (h' : x' w.right = .ok a w₁.right)
    (hg : w₁.Balanced K) (hl : w.Later w₁) (hq : Q a w₁) : Paired K x x' w Q := by
  unfold Paired
  rw [h, h']
  exact ⟨rfl, w₁.names, hg, hl, hq⟩

theorem paired_of_error (w₁ : World) (h : x w.left = .error i w₁.left) (h' : x' w.right = .error i' w₁.right)
    (hg : w₁.Balanced K) (hl : w.Later w₁) (hi : i.Alike K i') : Paired K x x' w Q := by
  unfold Paired
  rw [h, h']
  exact ⟨hi, w₁.names, hg, hl⟩

/-- The two ways in which paired actions can end. -/
theorem Paired.ends (h : Paired K x x' w Q) :
    (∃ a w₁, x w.left = .ok a w₁.left ∧ x' w.right = .ok a w₁.right ∧ w₁.Balanced K ∧ w.Later w₁ ∧
      Q a w₁) ∨
    ∃ i i' w₁, x w.left = .error i w₁.left ∧ x' w.right = .error i' w₁.right ∧ w₁.Balanced K ∧
      w.Later w₁ ∧ i.Alike K i' := by
  unfold Paired at h
  split at h
  · rename_i a m a' m' hx hx'
    obtain ⟨rfl, names, hg, hl, hq⟩ := h
    exact .inl ⟨_, ⟨m, m', names⟩, hx, hx', hg, hl, hq⟩
  · rename_i i m i' m' hx hx'
    obtain ⟨hi, names, hg, hl⟩ := h
    exact .inr ⟨i, i', ⟨m, m', names⟩, hx, hx', hg, hl, hi⟩
  · exact h.elim

theorem paired_pure (hw : w.Balanced K) (hq : Q a w) : Paired K (pure a) (pure a) w Q :=
  paired_of_ok w rfl rfl hw (.refl w) hq

theorem paired_throw (hw : w.Balanced K) (hi : i.Alike K i') :
    Paired K (throw i : Exec α) (throw i') w Q :=
  paired_of_error w rfl rfl hw (.refl w) hi

theorem paired_fault (hw : w.Balanced K) {t t' : Token} (ht : t.Level K t') (r : Reason) :
    Paired K (fault t r : Exec α) (fault t' r) w Q :=
  paired_throw hw (.fault ⟨ht, rfl, rfl, fun _ => rfl⟩)

theorem paired_bind (hx : Paired K x x' w Q)
    (hf : ∀ a w₁, w₁.Balanced K → w.Later w₁ → Q a w₁ → Paired K (f a) (f' a) w₁ R) :
    Paired K (x >>= f) (x' >>= f') w R := by
  rcases hx.ends with ⟨a, w₁, h, h', hg, hl, hq⟩ | ⟨i, i', w₁, h, h', hg, hl, hi⟩
  · rcases (hf a w₁ hg hl hq).ends with ⟨b, w₂, h2, h2', hg', hl', hr⟩ |
      ⟨i, i', w₂, h2, h2', hg', hl', hi⟩
    · exact paired_of_ok w₂ ((bind_ok h).trans h2) ((bind_ok h').trans h2') hg' (hl.trans hl') hr
    · exact paired_of_error w₂ ((bind_ok h).trans h2) ((bind_ok h').trans h2') hg' (hl.trans hl') hi
  · exact paired_of_error w₁ (bind_error h) (bind_error h') hg hl hi

theorem Paired.mono (hx : Paired K x x' w Q) (hq : ∀ a w₁, w₁.Balanced K → w.Later w₁ → Q a w₁ → Q' a w₁) :
    Paired K x x' w Q' := by
  rcases hx.ends with ⟨a, w₁, h, h', hg, hl, h1⟩ | ⟨i, i', w₁, h, h', hg, hl, hi⟩
  · exact paired_of_ok w₁ h h' hg hl (hq a w₁ hg hl h1)
  · exact paired_of_error w₁ h h' hg hl hi

theorem Paired.of_eq {y y' : Exec α} (hp : Paired K y y' w Q) (h : x w.left = y w.left)
    (h' : x' w.right = y' w.right) : Paired K x x' w Q := by
  unfold Paired at hp ⊢
  rw [h, h']
  exact hp

/-- Actions that go by what the heaps say. -/
theorem paired_heap {g g' : Heap → Exec α} (hp : Paired K (g w.left.heap) (g' w.right.heap) w Q) :
    Paired K (heap >>= g) (heap >>= g') w Q :=
  hp.of_eq rfl rfl

/-- Actions that go by the state of the machines. -/
theorem paired_get {g g' : Machine → Exec α} (hp : Paired K (g w.left) (g' w.right) w Q) :
    Paired K (get >>= g) (get >>= g') w Q :=
  hp.of_eq rfl rfl

/-- A step on the heap that gives the same result on both sides. -/
theorem paired_make {g g' : Heap → α × Heap} {names : Id → Renaming}
    (he : (g' w.right.heap).1 = (g w.left.heap).1)
    (hg : (w.heaps (g w.left.heap).2 (g' w.right.heap).2 names).Balanced K)
    (hl : w.Later (w.heaps (g w.left.heap).2 (g' w.right.heap).2 names))
    (hq : Q (g w.left.heap).1 (w.heaps (g w.left.heap).2 (g' w.right.heap).2 names)) :
    Paired K (make g) (make g') w Q :=
  paired_of_ok (w.heaps (g w.left.heap).2 (g' w.right.heap).2 names) rfl (he ▸ rfl) hg hl hq

/-! ## Frames and calls -/

/-- The world in another frame. -/
def World.inside (w : World) (frame : Id) : World :=
  ⟨{ w.left with frame }, { w.right with frame }, w.names⟩

theorem World.Balanced.inside (hw : w.Balanced K) (frame : Id) : (w.inside frame).Balanced K :=
  (hw.of_same_heaps { w.left with frame } { w.right with frame } rfl rfl rfl
    hw.printed hw.clock).1

theorem World.Grows.inside (w : World) (frame : Id) : w.Grows (w.inside frame) :=
  ⟨fun hp => ⟨hp, rfl⟩, id, id⟩

/-- Coming back from another frame. -/
theorem World.Later.back {frame : Id} (hl : (w.inside frame).Later w₁) :
    w.Later (w₁.inside w.left.frame) :=
  ⟨((World.Grows.inside w frame).trans hl.toGrows).trans (.inside w₁ _), rfl⟩

theorem paired_inFrame (hw : w.Balanced K) {frame : Id}
    (hx : Paired K x x' (w.inside frame) fun a w₁ => Q a (w₁.inside w.left.frame)) :
    Paired K (inFrame frame x) (inFrame frame x') w Q := by
  rcases hx.ends with ⟨a, w₁, h, h', hg, hl, hq⟩ | ⟨i, i', w₁, h, h', hg, hl, hi⟩
  · refine paired_of_ok (w₁.inside w.left.frame) ?_ ?_ (hg.inside _) hl.back hq
    · unfold inFrame
      simp only [show x { w.left with frame } = _ from h]
      rfl
    · unfold inFrame
      simp only [show x' { w.right with frame } = _ from h', hw.frame]
      rfl
  · refine paired_of_error (w₁.inside w.left.frame) ?_ ?_ (hg.inside _) hl.back hi
    · unfold inFrame
      simp only [show x { w.left with frame } = _ from h]
      rfl
    · unfold inFrame
      simp only [show x' { w.right with frame } = _ from h', hw.frame]
      rfl

/-- A fault that leaves alike calls stays alike. -/
theorem Fault.Alike.leaving {e e' : Fault} (h : e.Alike K e') {c c' : Call} (hn : c'.name = c.name)
    (hl : K.lines → c'.line = c.line) : (e.leaving c).Alike K (e'.leaving c') where
  level := h.level
  reason := h.reason
  calls := by simp [Fault.leaving, h.calls, hn]
  lines hk := by
    have hc : c' = c := by
      cases c
      cases c'
      simp_all
    simp [Fault.leaving, h.lines hk, hc]

theorem Interrupt.Alike.leaving (h : i.Alike K i') {c c' : Call} (hn : c'.name = c.name)
    (hl : K.lines → c'.line = c.line) : (Exec.leaving c i).Alike K (Exec.leaving c' i') := by
  cases h with
  | fault h => exact .fault (h.leaving hn hl)
  | broken h => exact .broken h
  | outOfFuel => exact .outOfFuel

theorem paired_asCall (hw : w.Balanced K) (s : Setting) (c c' : Call) (hn : c'.name = c.name)
    (hc : K.lines → c'.line = c.line)
    (hx : ∀ w₁ : World, w₁.Balanced K → w.Later w₁ → Paired K x x' w₁ Q)
    (hq : ∀ {a : α} {w₁ w₂ : World}, Q a w₁ → w₁.Grows w₂ → Q a w₂) :
    Paired K (asCall s c x) (asCall s c' x') w Q := by
  obtain ⟨hg, hgr⟩ := hw.of_same_heaps (w.left.enter s c) (w.right.enter s c') rfl rfl
    hw.frame hw.printed hw.clock
  rcases (hx _ hg ⟨hgr, rfl⟩).ends with ⟨a, w₁, h, h', hg₁, hl₁, hq₁⟩ |
    ⟨i, i', w₁, h, h', hg₁, hl₁, hi⟩
  · obtain ⟨hg₂, hgr₂⟩ := hg₁.of_same_heaps { w₁.left with calls := w₁.left.calls.pop }
      { w₁.right with calls := w₁.right.calls.pop } rfl rfl hg₁.frame hg₁.printed hg₁.clock
    exact paired_of_ok ⟨_, _, w₁.names⟩ (asCall_ok h) (asCall_ok h') hg₂
      ⟨hgr.trans (hl₁.toGrows.trans hgr₂), hl₁.frame⟩ (hq hq₁ hgr₂)
  · have hleft : ∀ (i : Interrupt) (m : Machine), (left i m).heap = m.heap ∧
        (left i m).frame = m.frame ∧ (left i m).printed = m.printed ∧ (left i m).clock = m.clock := by
      intro i m
      cases i <;> exact ⟨rfl, rfl, rfl, rfl⟩
    obtain ⟨hh, hf, hp, hk⟩ := hleft i w₁.left
    obtain ⟨hh', hf', hp', hk'⟩ := hleft i' w₁.right
    obtain ⟨hg₂, hgr₂⟩ := hg₁.of_same_heaps _ _ hh hh' (by rw [hf, hf', hg₁.frame])
      (by rw [hp, hp', hg₁.printed]) (by rw [hk, hk', hg₁.clock])
    exact paired_of_error ⟨_, _, w₁.names⟩ (asCall_error h) (asCall_error h') hg₂
      ⟨hgr.trans (hl₁.toGrows.trans hgr₂), hf.trans hl₁.frame⟩ (hi.leaving hn hc)

end

/-! ## References -/

/-- There is nothing outside the globals. -/
theorem Heap.chain_globals (h : Heap) : h.chain globals = [globals] := by
  simp only [Heap.chain, globals, Heap.chainWithin]
  cases h.parent? 0 <;> rfl

theorem Heap.get?_globals (h : Heap) (name : String) :
    h.get? globals name = (h.vars globals).lookup name := by
  rw [Heap.get?, Heap.chain_globals, List.findSome?_singleton]

theorem Heap.holder?_globals (h : Heap) (name : String) :
    h.holder? globals name = if (h.vars globals).binds name then some globals else none := by
  rw [Heap.holder?, Heap.chain_globals, List.find?_singleton]

section
variable {K : Likeness} {s : Setting} {w : World} (hw : w.Balanced K)
include hw

/-- Reading a name in the frame that its distance leads to. -/
theorem paired_getAt (f : Id) {g : Id} (hops : Int) (hg : w.left.heap.ancestor? f hops.toNat = some g)
    {name name' : String} (hn : name' = w.names g name) :
    Paired K (promised (w.left.heap.getAt f hops name)) (promised (w.right.heap.getAt f hops name')) w
      fun v w₁ => w₁ = w ∧ w.Has K v := by
  have hlook : (w.right.heap.vars g).lookup name' = (w.left.heap.vars g).lookup name := by
    rw [hn, hw.lookup]
  unfold Heap.getAt
  rw [hw.ancestor?, hg]
  simp only [hlook]
  cases hv : (w.left.heap.vars g).lookup name with
  | some v => exact paired_pure hw ⟨rfl, hw.values g _ (Table.mem_of_lookup hv)⟩
  | none =>
    refine paired_throw hw (.broken fun hk => ?_)
    rw [hn, (hw.fair g).names hk]
    rfl

theorem paired_lookUp_globals {t t' : Token} (ht : t.Level K t') (hn : t'.lexeme = t.lexeme) :
    Paired K (lookUp globals t) (lookUp globals t') w fun v w₁ => w₁ = w ∧ w.Has K v := by
  unfold lookUp
  refine paired_heap ?_
  rw [hn, Heap.get?_globals, Heap.get?_globals, hw.globalVars]
  cases hv : (w.left.heap.vars globals).lookup t.lexeme with
  | some v => exact paired_pure hw ⟨rfl, hw.values _ _ (Table.mem_of_lookup hv)⟩
  | none => exact paired_fault hw ht _

/-- References that are alike have the same value. -/
theorem paired_read (hst : s.scoping = .static) {ρ : List Renaming}
    (hρ : w.Around w.left.frame ρ) {r r' : Reference} (hr : r.Alike K ρ r') :
    Paired K (read s r) (read s r') w fun v w₁ => w₁ = w ∧ w.Has K v := by
  unfold Exec.read
  rw [hst, hr.hops]
  cases hk : r.hops with
  | none => exact paired_lookUp_globals hw hr.level (hr.free hk)
  | some k =>
    obtain ⟨ν, hν, hn⟩ := hr.bound k hk
    obtain ⟨g, hg, rfl⟩ := hρ.ancestor? hν
    refine paired_heap (paired_get ?_)
    rw [hw.frame]
    exact paired_getAt hw _ _ hg hn

/-- Binding a name in a frame, under the frame's renaming. -/
theorem paired_defineIn {g : Id} {name name' : String} (hn : name' = w.names g name) {v : Value}
    (hv : w.Has K v) : Paired K (defineIn g name v) (defineIn g name' v) w fun _ _ => True := by
  obtain ⟨hg, hl⟩ := hw.define g name hv
  subst hn
  exact paired_of_ok (w.heaps _ _ _) rfl rfl hg hl trivial

/-- References that are alike are assigned to in the same frame. -/
theorem paired_write (hst : s.scoping = .static) {ρ : List Renaming}
    (hρ : w.Around w.left.frame ρ) {r r' : Reference} (hr : r.Alike K ρ r') {v : Value}
    (hv : w.Has K v) : Paired K (write s r v) (write s r' v) w fun _ _ => True := by
  unfold Exec.write
  rw [hst, hr.hops]
  cases hk : r.hops with
  | none =>
    have hn : r'.token.lexeme = r.token.lexeme := hr.free hk
    refine paired_heap ?_
    rw [hn, Heap.holder?_globals, Heap.holder?_globals, hw.globalVars]
    by_cases hb : (w.left.heap.vars globals).binds r.token.lexeme = true
    · simp only [hb, if_true]
      refine paired_defineIn hw ?_ hv
      rw [hw.globals]
      rfl
    · simp only [hb]
      exact paired_fault hw hr.level _
  | some k =>
    obtain ⟨ν, hν, hn⟩ := hr.bound k hk
    obtain ⟨g, hg, rfl⟩ := hρ.ancestor? hν
    have hbinds : (w.right.heap.vars g).binds r'.name = (w.left.heap.vars g).binds r.name := by
      simp only [Table.binds, hn, hw.lookup]
    refine paired_heap (paired_get ?_)
    unfold Heap.slotAt
    simp only [hw.frame, hw.ancestor?, Int.toNat_natCast, hg, hbinds]
    by_cases hb : (w.left.heap.vars g).binds r.name = true
    · simp only [hb, if_true]
      exact (paired_defineIn hw hn hv).of_eq rfl rfl
    · simp only [hb]
      refine (paired_throw hw (.broken fun hk => ?_)).of_eq rfl rfl
      rw [hn, (hw.fair g).names hk]
      rfl

/-- The parts of `super` are found at their distances, which are the same. -/
theorem paired_superParts (hst : s.scoping = .static) {ρ : List Renaming}
    (hρ : w.Around w.left.frame ρ) {r r' : Reference} (hr : r.Alike K ρ r') :
    Paired K (superParts s r) (superParts s r') w fun _ w₁ => w₁ = w := by
  unfold superParts
  rw [hst, hr.hops]
  cases hk : r.hops with
  | none => exact paired_throw hw (.broken fun _ => rfl)
  | some k =>
    obtain ⟨ν, hν, -⟩ := hr.bound k hk
    have hlt : k < ρ.length := (List.getElem?_eq_some_iff.1 hν).1
    have hν' : ρ[k - 1]? = some (ρ[k - 1]) := List.getElem?_eq_getElem (by omega)
    obtain ⟨g, hg, -⟩ := hρ.ancestor? hν
    obtain ⟨g', hg', -⟩ := hρ.ancestor? hν'
    have hk' : ((k : Int) - 1).toNat = k - 1 := by omega
    refine paired_get (paired_heap ?_)
    rw [hw.frame]
    refine paired_bind (paired_getAt hw _ _ hg (hw.fair g).super.symm) fun v w₁ _ _ h1 => ?_
    obtain ⟨rfl, -⟩ := h1
    refine paired_heap ?_
    refine paired_bind (paired_getAt hw _ _ (hk'.symm ▸ hg') (hw.fair g').this.symm)
      fun o w₁ _ _ h2 => ?_
    obtain ⟨rfl, -⟩ := h2
    exact paired_pure hw rfl

/-! ## Values -/

theorem paired_unaryOp (op : UnaryOp) {t t' : Token} (ht : t.Level K t') (v : Value) :
    Paired K (unaryOp op t v) (unaryOp op t' v) w fun r w₁ => w₁.Has K r := by
  unfold unaryOp
  split
  · exact paired_pure hw trivial
  · exact paired_pure hw trivial
  · exact paired_fault hw ht _

theorem paired_numericOp {t t' : Token} (ht : t.Level K t') (f : Number → Number → Value)
    (hf : ∀ a b, (f a b).isPlain = true) (a b : Value) :
    Paired K (numericOp t f a b) (numericOp t' f a b) w fun r w₁ => w₁.Has K r := by
  unfold numericOp
  split
  · exact paired_pure hw (World.has_of_isPlain (hf _ _))
  · exact paired_fault hw ht _

theorem paired_binaryOp (op : BinaryOp) {t t' : Token} (ht : t.Level K t') (a b : Value) :
    Paired K (binaryOp op t a b) (binaryOp op t' a b) w fun r w₁ => w₁.Has K r := by
  cases op with
  | equal | notEqual => exact paired_pure hw trivial
  | add =>
    change Paired K (addOp t a b) (addOp t' a b) w _
    unfold addOp
    split
    · exact paired_pure hw trivial
    · exact paired_pure hw trivial
    · exact paired_fault hw ht _
  | _ => exact paired_numericOp hw ht _ (fun _ _ => rfl) a b

theorem paired_runNative {native : Native} (hn : native.Honest) {args : List Value}
    (ha : ∀ a ∈ args, w.Has K a) :
    Paired K (runNative native args) (runNative native args) w fun v w₁ => w₁.Has K v := by
  cases hact : native.act args w.left.clock with
  | mk result clock =>
    obtain ⟨hg, hgr⟩ := hw.of_same_heaps { w.left with clock } { w.right with clock }
      rfl rfl hw.frame hw.printed rfl
    have hact' : native.act args w.right.clock = (result, clock) := by rw [hw.clock, hact]
    cases result with
    | ok v =>
      refine paired_of_ok (a := v) ⟨_, _, w.names⟩ (by simp only [runNative, hact])
        (by simp only [runNative, hact']) hg ⟨hgr, rfl⟩ ?_
      rcases hn args w.left.clock v clock hact with hp | hm
      · exact World.has_of_isPlain hp
      · exact hgr.has (ha v hm)
    | error f =>
      have hi : Interrupt.Alike K (.fault ⟨f.token, .native f.reason, []⟩)
          (.fault ⟨f.token, .native f.reason, []⟩) := .fault ⟨fun _ => rfl, rfl, rfl, fun _ => rfl⟩
      exact paired_of_error ⟨_, _, w.names⟩ (by simp only [runNative, hact])
        (by simp only [runNative, hact']) hg ⟨hgr, rfl⟩ hi

/-- A callee is the same to both sides. -/
theorem callable?_eq (s : Setting) {v : Value} (hv : w.Has K v) :
    callable? s w.right.heap v = callable? s w.left.heap v := by
  cases v with
  | function f =>
    obtain ⟨hn, ha⟩ := World.Balanced.Closes.same hv
    simp only [callable?, hn, ha]
  | cls c =>
    have harity : w.right.heap.classArity c = w.left.heap.classArity c := by
      unfold Heap.classArity Heap.initializer?
      rw [hw.findMethod?]
      cases hm : w.left.heap.findMethod? c initName with
      | none => rfl
      | some p =>
        obtain ⟨-, hl⟩ := Heap.findMethod?_eq_some hm
        exact (World.Balanced.Closes.same (hw.methods _ _ (Table.mem_of_lookup hl))).2
    have hname : w.right.heap.className c = w.left.heap.className c := by
      simp only [Heap.className, hw.classes]
    simp only [callable?, harity, hname]
  | _ => rfl

/-! ## Objects -/

/-- A property that is found is the same property on both sides. -/
theorem property?_eq (o : Id) (name : String) :
    w.right.heap.property? o name = w.left.heap.property? o name := by
  have hf : w.right.heap.fields o = w.left.heap.fields o := by simp only [Heap.fields, hw.instances]
  have hc : w.right.heap.classOf? o = w.left.heap.classOf? o := by
    simp only [Heap.classOf?, hw.instances]
  simp only [Heap.property?, hf, hc, hw.findMethod?]

theorem paired_bindMethod {f : Id} (hf : w.Closes K [.refl String] f) (o : Id) :
    Paired K (make (·.bindMethod f o)) (make (·.bindMethod f o)) w
      fun g w₁ => w₁.Has K (.function g) := by
  obtain ⟨names, he, hg, hl, hh⟩ := hw.bindMethod hf o
  exact paired_make he hg hl hh

theorem paired_getProperty (object : Value) {t t' : Token} (ht : t.Level K t')
    (hn : t'.lexeme = t.lexeme) :
    Paired K (Eval.getProperty object t) (Eval.getProperty object t') w fun v w₁ => w₁.Has K v := by
  cases object with
  | object o =>
    unfold Eval.getProperty
    rw [hn]
    have hmake : Paired K (make (·.getProperty o t.lexeme)) (make (·.getProperty o t.lexeme)) w
        fun found w₁ => ∀ v, found = some v → w₁.Has K v := by
      have hp := property?_eq hw o t.lexeme
      cases hfound : w.left.heap.property? o t.lexeme with
      | none =>
        rw [hfound] at hp
        refine (paired_pure (a := none) hw fun v hv => by cases hv).of_eq ?_ ?_
        · exact make_eq (by simp only [Heap.getProperty, hfound])
        · exact make_eq (by simp only [Heap.getProperty, hp])
      | some property =>
        rw [hfound] at hp
        cases property with
        | field v =>
          have hl := Heap.field_of_property? hfound
          refine (paired_pure (a := some v) hw fun u hu => ?_).of_eq ?_ ?_
          · cases hu
            exact hw.fields o _ (Table.mem_of_lookup hl)
          · exact make_eq (by simp only [Heap.getProperty, hfound])
          · exact make_eq (by simp only [Heap.getProperty, hp])
        | method f =>
          obtain ⟨_, _, -, -, hlook⟩ := Heap.method_of_property? hfound
          have hclose := hw.methods _ _ (Table.mem_of_lookup hlook)
          obtain ⟨names, he, hg, hl, hh⟩ := hw.bindMethod hclose o
          refine paired_of_ok (a := some (.function (w.left.heap.bindMethod f o).1))
            (w.heaps _ _ names) ?_ ?_ hg hl fun v hv => ?_
          · exact make_eq (by simp only [Heap.getProperty, hfound])
          · exact make_eq (by simp only [Heap.getProperty, hp, he])
          · cases hv
            exact hh
    refine paired_bind hmake fun found w₁ hw₁ _ hfound => ?_
    cases found with
    | none => exact paired_fault hw₁ ht _
    | some v => exact paired_pure hw₁ (hfound v rfl)
  | _ => exact paired_fault hw ht _

theorem paired_superMethod (hst : s.scoping = .static) {ρ : List Renaming}
    (hρ : w.Around w.left.frame ρ) {r r' : Reference} (hr : r.Alike K ρ r') {t t' : Token}
    (ht : t.Level K t') (hn : t'.lexeme = t.lexeme) :
    Paired K (superMethod s r t) (superMethod s r' t') w fun v w₁ => w₁.Has K v := by
  unfold superMethod
  refine paired_bind (paired_superParts hw hst hρ hr) fun p w₁ _ _ h1 => ?_
  subst h1
  obtain ⟨v, o⟩ := p
  cases v with
  | cls c =>
    cases o with
    | object o =>
      refine paired_heap ?_
      rw [hn, hw.findMethod?]
      cases hm : w₁.left.heap.findMethod? c t.lexeme with
      | none => exact paired_fault hw ht _
      | some p =>
        obtain ⟨-, hlook⟩ := Heap.findMethod?_eq_some hm
        have hclose := hw.methods _ _ (Table.mem_of_lookup hlook)
        have hbind := paired_bind (paired_bindMethod hw hclose o) (f := fun g => pure (.function g))
          (R := fun v w₂ => w₂.Has K v) fun g w₂ hw₂ _ hg => paired_pure hw₂ hg
        exact hbind.of_eq rfl rfl
    | _ => exact paired_throw hw (.broken fun _ => rfl)
  | _ => exact paired_throw hw (.broken fun _ => rfl)

/-! ## Declarations -/

/-- Binding a name in the current frame, under the renaming of the innermost scope. -/
theorem paired_define {ρ : List Renaming} (hρ : w.Around w.left.frame ρ) {name name' : String}
    (hn : name' = innermost ρ name) {v : Value} (hv : w.Has K v) :
    Paired K (Exec.define name v) (Exec.define name' v) w fun _ _ => True := by
  rw [hρ.innermost hw] at hn
  refine (paired_defineIn hw hn hv).of_eq rfl ?_
  unfold Exec.define
  change EStateM.Result.ok _ { w.right with heap := w.right.heap.define w.right.frame name' v } = _
  rw [hw.frame]
  rfl

theorem paired_superclassOf (hst : s.scoping = .static) {ρ : List Renaming}
    (hρ : w.Around w.left.frame ρ) {r r' : Option Reference}
    (hr : OptionAlike (Reference.Alike K ρ) r r') :
    Paired K (superclassOf s r) (superclassOf s r') w
      fun parent w₁ => w₁ = w ∧ parent.isSome = r.isSome := by
  cases hr with
  | none => exact paired_pure hw ⟨rfl, rfl⟩
  | some hr =>
    refine paired_bind (paired_read hw hst hρ hr) fun v w₁ _ _ h1 => ?_
    obtain ⟨rfl, -⟩ := h1
    cases v with
    | cls c => exact paired_pure hw ⟨rfl, rfl⟩
    | _ => exact paired_fault hw hr.level _

theorem paired_declareClass (hst : s.scoping = .static) {ρ : List Renaming}
    (hρ : w.Around w.left.frame ρ) {t t' : Token} (hn : innermost ρ t.lexeme = t.lexeme)
    (ht : t'.lexeme = t.lexeme) {r r' : Option Reference}
    (hr : OptionAlike (Reference.Alike K ρ) r r') {ms ms' : List (FunDecl Stmt)}
    (hm : Stmt.FunAlikeAll K (aroundMethods r.isSome ρ) ms ms') :
    Paired K (declareClass s t r ms) (declareClass s t' r' ms') w fun _ _ => True := by
  -- what follows once the frame of the methods is known
  have hrest : ∀ (parent : Option Id) (g : Id) (w₂ : World), w₂.Balanced K → w.Later w₂ →
      w₂.Around g (if r.isSome then .refl String :: ρ else ρ) →
      Paired K
        (do
          let table ← make (·.newMethods g ms)
          let c ← make (·.newClass ⟨t.lexeme, parent, table⟩)
          Exec.define t.lexeme (.cls c))
        (do
          let table ← make (·.newMethods g ms')
          let c ← make (·.newClass ⟨t'.lexeme, parent, table⟩)
          Exec.define t'.lexeme (.cls c)) w₂ fun _ _ => True := by
    intro parent g w₂ hw₂ hl₂ hg
    obtain ⟨htable, hg₃, hl₃, hclose⟩ := hw₂.newMethods hg hm
    have hmethods : Paired K (make (·.newMethods g ms)) (make (·.newMethods g ms')) w₂
        fun table w₃ => ∀ e ∈ table, w₃.Closes K [.refl String] e.2 :=
      paired_make htable hg₃ hl₃ hclose
    refine paired_bind hmethods fun table w₃ hw₃ hl₃ hclose => ?_
    rw [ht]
    obtain ⟨hg₄, hl₄⟩ := hw₃.newClass (C := ⟨t.lexeme, parent, table⟩) hclose
    have hclass : Paired K (make (·.newClass ⟨t.lexeme, parent, table⟩))
        (make (·.newClass ⟨t.lexeme, parent, table⟩)) w₃ fun _ _ => True :=
      paired_make (congrArg Array.size hw₃.classes) hg₄ hl₄ trivial
    refine paired_bind hclass fun c w₄ hw₄ hl₄ _ => ?_
    exact paired_define hw₄ ((hl₂.trans (hl₃.trans hl₄)).here hρ) hn.symm trivial
  unfold declareClass
  refine paired_bind (paired_superclassOf hw hst hρ hr) fun parent w₁ _ _ h1 => ?_
  obtain ⟨rfl, hparent⟩ := h1
  refine paired_get ?_
  rw [hw.frame]
  cases parent with
  | none =>
    refine hrest none _ w₁ hw (.refl w₁) ?_
    rw [← hparent]
    exact hρ
  | some c =>
    have hv : ∀ e ∈ [("super", Value.cls c)], w₁.Has K e.2 := by
      intro e he
      cases List.mem_singleton.1 he
      trivial
    obtain ⟨hg, hl⟩ := hw.newFrame (Renaming.fair_refl K) hv (some w₁.left.frame)
    have hframe : Paired K (make (·.newFrame ⟨[("super", .cls c)], some w₁.left.frame⟩))
        (make (·.newFrame ⟨[("super", .cls c)], some w₁.left.frame⟩)) w₁
        fun g w₂ => w₂.Around g (.refl String :: ρ) :=
      paired_make hw.frames_size hg hl (hw.around_withFrame (Renaming.fair_refl K) hv hρ)
    refine paired_bind hframe fun g w₂ hw₂ hl₂ hg => hrest (some c) g w₂ hw₂ hl₂ ?_
    rw [← hparent]
    exact hg

end

end Lox

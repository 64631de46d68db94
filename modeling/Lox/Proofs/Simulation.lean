import Lox.Proofs.Pairing
import Lox.Session

/-!
# Alike code runs alike

Evaluation keeps a world balanced: alike expressions and statements, in the two machines of a
balanced world, give the same values and end alike (`stepwise`). The induction is over the fuel; each
case follows the text of the evaluator on both sides at once.

Main statement: alike programs, run in a balanced world, print the same and end alike, in a balanced
world (`paired_executeEach`).
-/

namespace Lox

open Exec Eval

/-- A value that is returned means the same on both sides. -/
def World.Returns (K : Likeness) (w : World) : Completion → Prop
  | .completed => True
  | .returned v => w.Has K v

theorem World.Returns.inside {K : Likeness} {w : World} {c : Completion} (h : w.Returns K c)
    (frame : Id) : (w.inside frame).Returns K c := by
  cases c with
  | completed => trivial
  | returned v => exact (World.Grows.inside w frame).has h

/-- Evaluation with fuel `n` keeps worlds balanced. -/
structure Stepwise (K : Likeness) (s : Setting) (n : Nat) : Prop where
  evaluate : ∀ {w : World} {ρ e e'}, w.Balanced K → w.Around w.left.frame ρ → Expr.Alike K ρ e e' →
    Paired K (Eval.evaluate s n e) (Eval.evaluate s n e') w fun v w₁ => w₁.Has K v
  evaluateAll : ∀ {w : World} {ρ es es'}, w.Balanced K → w.Around w.left.frame ρ →
    Expr.AlikeAll K ρ es es' → Paired K (Eval.evaluateAll s n es) (Eval.evaluateAll s n es') w
      fun vs w₁ => ∀ v ∈ vs, w₁.Has K v
  apply : ∀ {w : World} {callee args}, w.Balanced K → w.Has K callee → (∀ a ∈ args, w.Has K a) →
    Paired K (Eval.apply s n callee args) (Eval.apply s n callee args) w fun v w₁ => w₁.Has K v
  runFunction : ∀ {w : World} {f args}, w.Balanced K → w.Has K (.function f) →
    (∀ a ∈ args, w.Has K a) →
    Paired K (Eval.runFunction s n f args) (Eval.runFunction s n f args) w fun v w₁ => w₁.Has K v
  execute : ∀ {w : World} {ρ t t'}, w.Balanced K → w.Around w.left.frame ρ → Stmt.Alike K ρ t t' →
    Paired K (Eval.execute s n t) (Eval.execute s n t') w fun c w₁ => w₁.Returns K c
  executeAll : ∀ {w : World} {ρ ts ts'}, w.Balanced K → w.Around w.left.frame ρ →
    Stmt.AlikeAll K ρ ts ts' → Paired K (Eval.executeAll s n ts) (Eval.executeAll s n ts') w
      fun c w₁ => w₁.Returns K c

section
variable {K : Likeness} {s : Setting} (hst : s.scoping = .static)
  (hn : ∀ native ∈ s.natives, native.Honest) {n : Nat} (ih : Stepwise K s n)
  {w : World} {ρ : List Renaming}

/-! ## Expressions -/

include hst ih in
theorem paired_evaluate {e e' : Expr} (hw : w.Balanced K) (hρ : w.Around w.left.frame ρ)
    (he : Expr.Alike K ρ e e') :
    Paired K (Eval.evaluate s (n + 1) e) (Eval.evaluate s (n + 1) e') w fun v w₁ => w₁.Has K v := by
  cases he with
  | @literal c =>
    have hp : c.value.isPlain = true := by cases c <;> rfl
    exact paired_pure hw (World.has_of_isPlain hp)
  | group h => exact ih.evaluate hw hρ h
  | unary ht h =>
    simp only [Eval.evaluate]
    exact paired_bind (ih.evaluate hw hρ h) fun v w₁ hw₁ _ _ => paired_unaryOp hw₁ _ ht v
  | binary ht hl hr =>
    simp only [Eval.evaluate]
    refine paired_bind (ih.evaluate hw hρ hl) fun a w₁ hw₁ hl₁ _ => ?_
    refine paired_bind (ih.evaluate hw₁ (hl₁.here hρ) hr) fun b w₂ hw₂ _ _ => ?_
    exact paired_binaryOp hw₂ _ ht a b
  | @logical op _ _ _ _ _ _ hl hr =>
    simp only [Eval.evaluate]
    refine paired_bind (ih.evaluate hw hρ hl) fun a w₁ hw₁ hl₁ ha => ?_
    cases decides op a with
    | true => exact paired_pure hw₁ ha
    | false => exact ih.evaluate hw₁ (hl₁.here hρ) hr
  | name hr =>
    refine Paired.mono (x := Exec.read s _) (paired_read hw hst hρ hr) fun v w₁ _ _ h1 => ?_
    obtain ⟨rfl, hv⟩ := h1
    exact hv
  | assign hr h =>
    simp only [Eval.evaluate]
    refine paired_bind (ih.evaluate hw hρ h) fun v w₁ hw₁ hl₁ hv => ?_
    refine paired_bind (paired_write hw₁ hst (hl₁.here hρ) hr hv) fun _ w₂ hw₂ hl₂ _ => ?_
    exact paired_pure hw₂ (hl₂.has hv)
  | @call _ _ t t' _ _ ht h hs =>
    simp only [Eval.evaluate]
    refine paired_bind (ih.evaluate hw hρ h) fun f w₁ hw₁ hl₁ hf => ?_
    refine paired_bind (ih.evaluateAll hw₁ (hl₁.here hρ) hs) fun vs w₂ hw₂ hl₂ hvs => ?_
    refine paired_heap ?_
    rw [callable?_eq hw₂ s (hl₂.has hf)]
    cases callable? s w₂.left.heap f with
    | none => exact paired_fault hw₂ ht _
    | some c =>
      by_cases hl : (vs.length : Int) = c.arity
      · simp only [hl, if_true]
        exact paired_asCall hw₂ s ⟨c.name, t.line⟩ ⟨c.name, t'.line⟩ rfl ht
          (fun w₃ hw₃ hl₃ => ih.apply hw₃ (hl₃.has (hl₂.has hf)) fun a ha => hl₃.has (hvs a ha))
          fun hv hg => hg.has hv
      · simp only [hl, if_false]
        exact paired_fault hw₂ ht _
  | get ht hn h =>
    simp only [Eval.evaluate]
    exact paired_bind (ih.evaluate hw hρ h) fun o w₁ hw₁ _ _ => paired_getProperty hw₁ o ht hn
  | @set _ _ t t' _ _ ht hn h hv =>
    simp only [Eval.evaluate]
    refine paired_bind (ih.evaluate hw hρ h) fun o w₁ hw₁ hl₁ _ => ?_
    cases o with
    | object id =>
      refine paired_bind (ih.evaluate hw₁ (hl₁.here hρ) hv) fun v w₂ hw₂ hl₂ hv => ?_
      obtain ⟨hg, hl⟩ := hw₂.setField id t.lexeme hv
      rw [hn]
      exact paired_of_ok (w₂.heaps _ _ _) rfl rfl hg hl (hl.has hv)
    | _ => exact paired_fault hw₁ ht _
  | thisRef hr =>
    refine Paired.mono (x := Exec.read s _) (paired_read hw hst hρ hr) fun v w₁ _ _ h1 => ?_
    obtain ⟨rfl, hv⟩ := h1
    exact hv
  | superRef hr ht hn => exact paired_superMethod hw hst hρ hr ht hn

include ih in
theorem paired_evaluateAll {es es' : List Expr} (hw : w.Balanced K) (hρ : w.Around w.left.frame ρ)
    (he : Expr.AlikeAll K ρ es es') :
    Paired K (Eval.evaluateAll s (n + 1) es) (Eval.evaluateAll s (n + 1) es') w
      fun vs w₁ => ∀ v ∈ vs, w₁.Has K v := by
  cases he with
  | nil =>
    simp only [Eval.evaluateAll]
    exact paired_pure hw fun v hv => by cases hv
  | cons h hs =>
    simp only [Eval.evaluateAll]
    refine paired_bind (ih.evaluate hw hρ h) fun v w₁ hw₁ hl₁ hv => ?_
    refine paired_bind (ih.evaluateAll hw₁ (hl₁.here hρ) hs) fun vs w₂ hw₂ hl₂ hvs => ?_
    refine paired_pure hw₂ fun u hu => ?_
    rcases List.mem_cons.1 hu with rfl | hu
    · exact hl₂.has hv
    · exact hvs u hu

/-! ## Calls -/

include hn ih in
theorem paired_apply {callee : Value} {args : List Value} (hw : w.Balanced K) (hc : w.Has K callee)
    (ha : ∀ a ∈ args, w.Has K a) :
    Paired K (Eval.apply s (n + 1) callee args) (Eval.apply s (n + 1) callee args) w
      fun v w₁ => w₁.Has K v := by
  cases callee with
  | native id =>
    simp only [Eval.apply]
    cases hnat : s.natives[id]? with
    | none => exact paired_throw hw (.broken fun _ => rfl)
    | some native => exact paired_runNative hw (hn native (List.mem_of_getElem? hnat)) ha
  | function f => exact ih.runFunction hw hc ha
  | cls c =>
    simp only [Eval.apply]
    obtain ⟨hg, hl⟩ := hw.newInstance c
    have hmake : Paired K (make (·.newInstance c)) (make (·.newInstance c)) w
        fun _ _ => True := paired_make (congrArg Array.size hw.instances) hg hl trivial
    refine paired_bind hmake fun o w₁ hw₁ hl₁ _ => paired_heap ?_
    unfold Heap.initializer?
    rw [hw₁.findMethod?]
    cases hm : w₁.left.heap.findMethod? c initName with
    | none => exact paired_pure hw₁ trivial
    | some p =>
      obtain ⟨-, hlook⟩ := Heap.findMethod?_eq_some hm
      have hclose := hw₁.methods _ _ (Table.mem_of_lookup hlook)
      refine paired_bind (paired_bindMethod hw₁ hclose o) fun f w₂ hw₂ hl₂ hf => ?_
      refine paired_bind (ih.runFunction hw₂ hf fun a hm => hl₂.has (hl₁.has (ha a hm)))
        fun _ w₃ hw₃ _ _ => paired_pure hw₃ trivial
  | nil | bool b | number x | string x | object o =>
    exact paired_throw hw (.broken fun _ => rfl)

include ih in
/-- The body of a function runs under the renaming of its scope. -/
theorem paired_runFunction {f : Id} {args : List Value} (hw : w.Balanced K)
    (hf : w.Has K (.function f)) (ha : ∀ a ∈ args, w.Has K a) :
    Paired K (Eval.runFunction s (n + 1) f args) (Eval.runFunction s (n + 1) f args) w
      fun v w₁ => w₁.Has K v := by
  obtain ⟨c, c', ρ, hc, hc', hframe, hinit, hρ, hd⟩ := hf
  obtain ⟨-, ν, hν, hp, hb⟩ := hd.parts
  simp only [Eval.runFunction]
  refine paired_heap ?_
  simp only [hc, hc']
  have hvars : (Table.insertAll [] ((c'.decl.params.map (·.lexeme)).zip args) : Table Value) =
      (Table.insertAll [] ((c.decl.params.map (·.lexeme)).zip args)).rename ν := by
    have hmap : (c.decl.params.map fun p => ν p.lexeme) =
        (c.decl.params.map (·.lexeme)).map ν := by simp
    rw [hp, hmap, ← Table.insertAll_rename, List.zip_map_left]
    rfl
  have hv : ∀ e ∈ (Table.insertAll [] ((c.decl.params.map (·.lexeme)).zip args) : Table Value),
      w.Has K e.2 := by
    intro e he
    rcases Table.mem_insertAll he with he | he
    · cases he
    · exact ha e.2 (List.of_mem_zip he).2
  obtain ⟨hg, hl⟩ := hw.newFrame hν hv (some c.frame)
  have hmake : Paired K
      (make (·.newFrame ⟨Table.insertAll [] ((c.decl.params.map (·.lexeme)).zip args), some c.frame⟩))
      (make (·.newFrame ⟨Table.insertAll [] ((c'.decl.params.map (·.lexeme)).zip args),
        some c'.frame⟩)) w fun g w₁ => w₁.Around g (ν :: ρ) := by
    rw [hvars, hframe]
    exact paired_make hw.frames_size hg hl (hw.around_withFrame hν hv hρ)
  refine paired_bind hmake fun g w₁ hw₁ hl₁ hg => ?_
  have hbody : Paired K (inFrame g (Eval.executeAll s n c.decl.body))
      (inFrame g (Eval.executeAll s n c'.decl.body)) w₁ fun e w₂ => w₂.Returns K e := by
    refine paired_inFrame hw₁ ?_
    exact (ih.executeAll (hw₁.inside g) ((World.Grows.inside w₁ g).around hg) hb).mono
      fun e w₂ _ _ h2 => h2.inside _
  refine paired_bind hbody fun e w₂ hw₂ hl₂ he => ?_
  rw [hinit, hframe]
  by_cases hi : c.isInitializer = true
  · simp only [hi, if_true]
    refine paired_heap ?_
    refine (paired_getAt hw₂ c.frame 0 rfl (hw₂.fair c.frame).this.symm).mono
      fun v w₃ _ _ h3 => ?_
    obtain ⟨rfl, hv⟩ := h3
    exact hv
  · simp only [hi]
    cases e with
    | completed => exact paired_pure hw₂ trivial
    | returned v => exact paired_pure hw₂ he

/-! ## Statements -/

include hst ih in
theorem paired_execute {t t' : Stmt} (hw : w.Balanced K) (hρ : w.Around w.left.frame ρ)
    (ht : Stmt.Alike K ρ t t') :
    Paired K (Eval.execute s (n + 1) t) (Eval.execute s (n + 1) t') w
      fun c w₁ => w₁.Returns K c := by
  cases ht with
  | expression h =>
    simp only [Eval.execute]
    exact paired_bind (ih.evaluate hw hρ h) fun _ w₁ hw₁ _ _ => paired_pure hw₁ trivial
  | print h =>
    simp only [Eval.execute]
    refine paired_bind (ih.evaluate hw hρ h) fun v w₁ hw₁ _ hv => ?_
    have hp : w₁.right.printed ++ w₁.right.heap.text v ++ "\n" =
        w₁.left.printed ++ w₁.left.heap.text v ++ "\n" := by rw [hw₁.text hv, hw₁.printed]
    obtain ⟨hg, hgr⟩ := hw₁.of_same_heaps
      { w₁.left with printed := w₁.left.printed ++ w₁.left.heap.text v ++ "\n" }
      { w₁.right with printed := w₁.right.printed ++ w₁.right.heap.text v ++ "\n" } rfl rfl
      hw₁.frame hp hw₁.clock
    exact paired_of_ok ⟨_, _, w₁.names⟩ rfl rfl hg ⟨hgr, rfl⟩ trivial
  | @var _ t t' _ _ hn h =>
    have hdefine : ∀ {v : Value} {w₁ : World}, w₁.Balanced K → w.Later w₁ → w₁.Has K v →
        Paired K (do Exec.define t.lexeme v; pure Completion.completed)
          (do Exec.define t'.lexeme v; pure Completion.completed) w₁
          fun c w₂ => w₂.Returns K c := fun hw₁ hl₁ hv =>
      paired_bind (paired_define hw₁ (hl₁.here hρ) hn hv) fun _ w₂ hw₂ _ _ =>
        paired_pure hw₂ trivial
    simp only [Eval.execute]
    cases h with
    | none => exact hdefine (v := .nil) hw (.refl w) trivial
    | some h => exact paired_bind (ih.evaluate hw hρ h) fun v w₁ hw₁ hl₁ hv => hdefine hw₁ hl₁ hv
  | @block _ ν _ _ hν hb =>
    simp only [Eval.execute]
    have hv : ∀ e ∈ ([] : Table Value), w.Has K e.2 := fun e he => by cases he
    obtain ⟨hg, hl⟩ := hw.newFrame hν hv (some w.left.frame)
    have hmake : Paired K (make (·.newFrame ⟨[], some w.left.frame⟩))
        (make (·.newFrame ⟨[], some w.left.frame⟩)) w fun g w₁ => w₁.Around g (ν :: ρ) :=
      paired_make hw.frames_size hg hl (hw.around_withFrame hν hv hρ)
    refine paired_get ?_
    rw [hw.frame]
    refine paired_bind hmake fun g w₁ hw₁ _ hg => paired_inFrame hw₁ ?_
    exact (ih.executeAll (hw₁.inside g) ((World.Grows.inside w₁ g).around hg) hb).mono
      fun e w₂ _ _ h2 => h2.inside _
  | ifThen h hy =>
    simp only [Eval.execute]
    refine paired_bind (ih.evaluate hw hρ h) fun v w₁ hw₁ hl₁ _ => ?_
    cases v.truthy with
    | true => exact ih.execute hw₁ (hl₁.here hρ) hy
    | false => exact paired_pure hw₁ trivial
  | ifElse h hy hno =>
    simp only [Eval.execute]
    refine paired_bind (ih.evaluate hw hρ h) fun v w₁ hw₁ hl₁ _ => ?_
    cases v.truthy with
    | true => exact ih.execute hw₁ (hl₁.here hρ) hy
    | false => exact ih.execute hw₁ (hl₁.here hρ) hno
  | loop h hb =>
    simp only [Eval.execute]
    refine paired_bind (ih.evaluate hw hρ h) fun v w₁ hw₁ hl₁ _ => ?_
    cases v.truthy with
    | false => exact paired_pure hw₁ trivial
    | true =>
      refine paired_bind (ih.execute hw₁ (hl₁.here hρ) hb) fun c w₂ hw₂ hl₂ hc => ?_
      cases c with
      | returned v => exact paired_pure hw₂ hc
      | completed => exact ih.execute hw₂ (hl₂.here (hl₁.here hρ)) (.loop h hb)
  | @function _ d d' hn hd =>
    simp only [Eval.execute]
    refine paired_get ?_
    rw [hw.frame]
    obtain ⟨hg, hl⟩ := hw.newFunction ⟨d, w.left.frame, false⟩ ⟨d', w.left.frame, false⟩
    have hclose : (w.withFunction ⟨d, w.left.frame, false⟩ ⟨d', w.left.frame, false⟩).Closes K []
        w.left.heap.functions.size := hw.closes_newFunction rfl rfl hρ hd
    have hmake : Paired K (make (·.newFunction ⟨d, w.left.frame, false⟩))
        (make (·.newFunction ⟨d', w.left.frame, false⟩)) w fun f w₁ => w₁.Has K (.function f) :=
      paired_make hw.functions hg hl hclose
    refine paired_bind hmake fun f w₁ hw₁ hl₁ hf => ?_
    have hname : d'.name.lexeme = innermost ρ d.name.lexeme := by rw [hn, hd.parts.1]
    exact paired_bind (paired_define hw₁ (hl₁.here hρ) hname hf) fun _ w₂ hw₂ _ _ =>
      paired_pure hw₂ trivial
  | ret h =>
    simp only [Eval.execute]
    cases h with
    | none => exact paired_pure hw trivial
    | some h => exact paired_bind (ih.evaluate hw hρ h) fun v w₁ hw₁ _ hv => paired_pure hw₁ hv
  | classDecl hn ht hr hm =>
    simp only [Eval.execute]
    exact paired_bind (paired_declareClass hw hst hρ hn ht hr hm) fun _ w₁ hw₁ _ _ =>
      paired_pure hw₁ trivial

include ih in
theorem paired_executeAll {ts ts' : List Stmt} (hw : w.Balanced K) (hρ : w.Around w.left.frame ρ)
    (ht : Stmt.AlikeAll K ρ ts ts') :
    Paired K (Eval.executeAll s (n + 1) ts) (Eval.executeAll s (n + 1) ts') w
      fun c w₁ => w₁.Returns K c := by
  cases ht with
  | nil =>
    simp only [Eval.executeAll]
    exact paired_pure hw trivial
  | cons h hs =>
    simp only [Eval.executeAll]
    refine paired_bind (ih.execute hw hρ h) fun c w₁ hw₁ hl₁ hc => ?_
    cases c with
    | returned v => exact paired_pure hw₁ hc
    | completed => exact ih.executeAll hw₁ (hl₁.here hρ) hs

include hst hn in
/-- Evaluation keeps worlds balanced, whatever its fuel. -/
theorem stepwise (K : Likeness) : ∀ n, Stepwise K s n
  | 0 =>
    ⟨fun hw _ _ => paired_throw hw .outOfFuel, fun hw _ _ => paired_throw hw .outOfFuel,
      fun hw _ _ => paired_throw hw .outOfFuel, fun hw _ _ => paired_throw hw .outOfFuel,
      fun hw _ _ => paired_throw hw .outOfFuel, fun hw _ _ => paired_throw hw .outOfFuel⟩
  | n + 1 =>
    have ih := stepwise K n
    ⟨paired_evaluate hst ih, paired_evaluateAll ih, paired_apply hn ih, paired_runFunction ih,
      paired_execute hst ih, paired_executeAll ih⟩

/-! ## Programs -/

include hst hn in
/-- The statements of alike programs, one after the other. -/
theorem paired_executeEach (fuel : Nat) : ∀ {ts ts' : List Stmt} {w : World}, w.Balanced K →
    w.Around w.left.frame ρ → Stmt.AlikeAll K ρ ts ts' →
    Paired K (Session.executeEach s fuel ts) (Session.executeEach s fuel ts') w fun _ _ => True
  | [], _, w, hw, _, h => by
    cases h with
    | nil => exact paired_pure hw trivial
  | t :: ts, _, w, hw, hρ, h => by
    cases h with
    | cons h hs =>
      exact paired_bind ((stepwise hst hn K fuel).execute hw hρ h) fun _ w₁ hw₁ hl₁ _ =>
        paired_executeEach fuel hw₁ (hl₁.here hρ) hs

end

end Lox

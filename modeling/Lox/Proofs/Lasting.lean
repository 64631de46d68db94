import Lox.Proofs.Passage
import Lox.Proofs.Safety

/-!
# What lasts through a session

A property of the heap lasts if it survives growth that makes no class, and the declaration of a
class (`Heap.Lasts`). What lasts survives every task of a session (`Moment.leaves`). It need not
hold from the start: if the heap has the property where a task ends, it has it where the task ends
that began this one (`Calls.leaves`), and so on outwards, to the end of the session
(`Moment.leaves_after`).

Main statement: every heap that a session goes through grows into the one it ends with
(`Moment.grows_after`).
-/

namespace Lox

open Heap Exec Eval Session

/-! ## Lasting properties -/

/-- The property lasts (module doc). -/
structure Heap.Lasts (P : Heap → Prop) : Prop where
  grows : ∀ {h h' : Heap}, P h → h.Grows h' → h'.classes = h.classes → P h'
  declares : ∀ {h : Heap} {current : Id} {name : String} {parent : Option Id}
    {methods : List (FunDecl Stmt)}, P h → h.Grows (classHeap h current name parent methods) →
    P (classHeap h current name parent methods)

/-- To have grown from a heap lasts. -/
theorem Heap.lasts_grows (h : Heap) : Heap.Lasts h.Grows where
  grows hp g _ := hp.trans g
  declares hp g := hp.trans g

namespace Exec

/-- However the action ends, begun in `m`: the heap has the property then. -/
def Leaves {α : Type} (P : Heap → Prop) (act : Exec α) (m : Machine) : Prop :=
  Ends act m (fun _ m' => P m'.heap) (fun _ m' => P m'.heap)

namespace Leaves

variable {α β : Type} {P : Heap → Prop} {x : Exec α} {f : α → Exec β} {m m₁ : Machine}

theorem pure {a : α} (h : P m.heap) : Leaves P (pure a) m := ends_pure h

theorem throw {i : Interrupt} (h : P m.heap) : Leaves P (throw i : Exec α) m := ends_throw h

theorem bind (hx : Leaves P x m) (hf : ∀ a m', x m = .ok a m' → P m'.heap → Leaves P (f a) m') :
    Leaves P (x >>= f) m :=
  Ends.bind hx hf

theorem after {a : α} (hx : x m = .ok a m₁) (h : Leaves P (f a) m₁) : Leaves P (x >>= f) m :=
  ends_bind (ends_of_ok hx fun _ => h)

theorem map {g : α → β} (h : Leaves P x m) : Leaves P (g <$> x) m := ends_map h

theorem of_map {g : α → β} (h : Leaves P (g <$> x) m) : Leaves P x m := Ends.of_map h

theorem inFrame {frame : Id} (h : Leaves P x { m with frame }) :
    Leaves P (Exec.inFrame frame x) m :=
  ends_inFrame h

theorem asCall {s : Setting} {call : Call} (h : Leaves P x (m.enter s call)) :
    Leaves P (Exec.asCall s call x) m :=
  ends_asCall (h.mono (fun _ _ _ hp => hp) fun i _ hp => by cases i <;> exact hp)

/-- An action that changes nothing. -/
theorem of_same {Q : α → Machine → Prop} {E : Interrupt → Machine → Prop} (h : P m.heap)
    (hx : Ends x m (fun a m' => m' = m ∧ Q a m') E) (he : ∀ i m', E i m' → m' = m) :
    Leaves P x m :=
  hx.mono (fun _ _ _ hq => hq.1 ▸ h) fun i m' hi => he i m' hi ▸ h

end Leaves

end Exec

/-! ## Steps of a task's own -/

theorem Heap.grows_bindMethod (h : Heap) (f o : Id) : h.Grows (h.bindMethod f o).2 := by
  cases hc : h.functions[f]? with
  | none =>
    have hb : h.bindMethod f o = (f, h) := by simp only [Heap.bindMethod, hc]
    rw [hb]
    exact .refl h
  | some c =>
    rw [bindMethod_eq hc]
    exact (grows_newFrame h _).trans (grows_newFunction _ _)

theorem Heap.classes_bindMethod (h : Heap) (f o : Id) :
    (h.bindMethod f o).2.classes = h.classes := by
  cases hc : h.functions[f]? with
  | none => simp only [Heap.bindMethod, hc]
  | some c =>
    rw [bindMethod_eq hc]
    rfl

section
variable {s : Setting} {P : Heap → Prop} (hP : Heap.Lasts P) {m : Machine} (h : P m.heap)
include h

theorem leaves_read (ref : Reference) : Leaves P (Exec.read s ref) m :=
  .of_same h (shows_read ref) fun _ _ hi => hi.1

theorem leaves_promised {α : Type} (r : Except Broken α) : Leaves P (promised r) m := by
  cases r with
  | ok a => exact .pure h
  | error b => exact .throw h

theorem leaves_unaryOp (op : UnaryOp) (token : Token) (v : Value) :
    Leaves P (unaryOp op token v) m :=
  .of_same h (ends_unaryOp op token v) fun _ _ hi => hi.1

theorem leaves_binaryOp (op : BinaryOp) (token : Token) (v w : Value) :
    Leaves P (binaryOp op token v w) m :=
  .of_same h (ends_binaryOp op token v w) fun _ _ hi => hi.1

theorem leaves_runNative (native : Native) (args : List Value) :
    Leaves P (runNative native args) m := by
  cases hact : native.act args m.clock with
  | mk result clock =>
    cases result with
    | ok v =>
      have hr : runNative native args m = .ok v { m with clock } := by simp only [runNative, hact]
      exact ends_of_ok hr h
    | error f =>
      have hr : runNative native args m =
          .error (.fault ⟨f.token, .native f.reason, []⟩) { m with clock } := by
        simp only [runNative, hact]
      exact ends_of_error hr h

include hP

theorem Heap.Lasts.define {name : String} (hn : ¬ isWord name) (f : Id) (v : Value) :
    P (m.heap.define f name v) :=
  hP.grows h (grows_define _ f v hn) rfl

theorem Heap.Lasts.bindMethod (f o : Id) : P (m.heap.bindMethod f o).2 :=
  hP.grows h (grows_bindMethod _ f o) (classes_bindMethod _ f o)

theorem leaves_write {ref : Reference} (hn : ¬ isWord ref.name) (v : Value) :
    Leaves P (Exec.write s ref v) m := by
  refine (ends_write_bind ref v).mono (fun _ m' _ hq => ?_) fun _ _ hi => hi.1 ▸ h
  obtain ⟨g, -, rfl⟩ := hq
  exact hP.define h hn g v

theorem leaves_getProperty (object : Value) (property : Token) :
    Leaves P (Eval.getProperty object property) m := by
  cases object with
  | object o =>
    have hget := Eval.getProperty_object o property m
    cases hp : m.heap.property? o property.lexeme with
    | none =>
      rw [hp] at hget
      exact ends_of_error hget h
    | some found =>
      rw [hp] at hget
      cases found with
      | field v => exact ends_of_ok hget h
      | method f => exact ends_of_ok hget (hP.bindMethod h f o)
  | _ => exact .throw h

theorem leaves_superMethod (ref : Reference) (method : Token) :
    Leaves P (superMethod s ref method) m := by
  refine Ends.bind ((shows_superParts ref).mono (fun p m' _ hp => hp.1) fun _ _ hi => hi.1 ▸ h)
    fun p m₁ _ h₁ => ?_
  subst h₁
  obtain ⟨superclass, object⟩ := p
  cases superclass with
  | cls c =>
    cases object with
    | object o =>
      refine ends_bind (ends_of_ok rfl fun _ => ?_)
      cases m₁.heap.findMethod? c method.lexeme with
      | none => exact ends_throw h
      | some p => exact ends_map (ends_of_ok rfl (hP.bindMethod h p.2 o))
    | _ => exact ends_throw h
  | _ => exact ends_throw h

end

/-! ## Tasks within tasks -/

section
variable {s : Setting} {clock : Clock} {runs : List (Nat × String)}
  (w : Watched s (ledger s clock runs) (Moment s clock runs)) {P : Heap → Prop}
  (hP : Heap.Lasts P) {n : Nat} {task task' : Task} {m m' : Machine}
include w hP

omit w hP in
/-- A call that has its callee: the arguments are evaluated, and the callee is applied to them. -/
theorem leaves_arguments {callee : Expr} {paren : Token} {args : List Expr} {f : Value}
    {m₁ : Machine}
    (rest : ∀ {task₁ m₁}, Calls s n (.evaluate (.call callee paren args)) m task₁ m₁ →
      P m₁.heap → Leaves P (task₁.run s n) m₁)
    (hf : evaluate s n callee m = .ok f m₁) (h : Leaves P (evaluateAll s n args) m₁) :
    Leaves P (evaluate s (n + 1) (.call callee paren args)) m := by
  refine .after hf (.bind h fun vs m₂ hvs h₂ => .after rfl ?_)
  cases hc : callable? s m₂.heap f with
  | none => exact .throw h₂
  | some c =>
    by_cases hl : (vs.length : Int) = c.arity
    · simp only [hl, if_true]
      exact .asCall (rest (.apply hf hvs hc hl) h₂).of_map
    · simp only [hl, if_false]
      exact .throw h₂

/-- **What holds at the end of a task holds at the end of the task around it**, if it survives the
tasks that are begun in between. Each case is the rest of the evaluator's text. -/
theorem Calls.leaves (hm : Moment s clock runs (n + 1) task m)
    (rest : ∀ {task₁ m₁}, Calls s n task m task₁ m₁ → P m₁.heap → Leaves P (task₁.run s n) m₁)
    (hc : Calls s n task m task' m') (h : Leaves P (task'.run s n) m') :
    Leaves P (task.run s (n + 1)) m := by
  obtain ⟨-, site, hr⟩ := hm.ready w
  cases hc with
  | group => exact h
  | operand => exact .map (.bind h.of_map fun v _ _ h₁ => leaves_unaryOp h₁ _ _ v)
  | left =>
    refine .map (.bind h.of_map fun a m₁ ha h₁ => ?_)
    exact .bind (rest (.right ha) h₁).of_map fun b _ _ h₂ => leaves_binaryOp h₂ _ _ a b
  | right hl => exact .map (.after hl (.bind h.of_map fun b _ _ h₁ => leaves_binaryOp h₁ _ _ _ b))
  | test =>
    refine .map (.bind h.of_map fun a m₁ ha h₁ => ?_)
    split
    · exact .pure h₁
    · rename_i hd
      exact (rest (.undecided ha (by simpa using hd)) h₁).of_map
  | undecided hl hd =>
    refine .map (.after hl ?_)
    simp only [hd]
    exact h.of_map
  | assigned =>
    refine .map (.bind h.of_map fun v m₁ _ h₁ => ?_)
    exact .bind (leaves_write hP h₁ hr.2.1 v) fun _ _ _ h₂ => .pure h₂
  | @callee callee paren args =>
    cases hf : evaluate s n callee m with
    | ok f m₁ =>
      have h₁ := rest (.arguments hf) (h.of_map.ok hf)
      exact .map (leaves_arguments rest hf h₁)
    | error i m₁ => exact .map (ends_of_error (bind_error hf) (h.of_map.error hf))
  | arguments hf => exact .map (leaves_arguments rest hf h)
  | apply hf hvs hc hl =>
    refine .map (.after hf (.after hvs (.after rfl ?_)))
    simp only [hc, hl, if_true]
    exact .asCall h.of_map
  | getObject => exact .map (.bind h.of_map fun o _ _ h₁ => leaves_getProperty hP h₁ o _)
  | setObject =>
    refine .map (.bind h.of_map fun o m₁ ho h₁ => ?_)
    cases o with
    | object id =>
      refine .bind (rest (.setValue ho) h₁).of_map fun v m₂ _ h₂ => ?_
      exact .after rfl (.pure (hP.grows h₂ (grows_setField _ id _ v) rfl))
    | _ => exact .throw h₁
  | setValue ho =>
    refine .map (.after ho (.bind h.of_map fun v m₁ _ h₁ => ?_))
    exact .after rfl (.pure (hP.grows h₁ (grows_setField _ _ _ v) rfl))
  | head =>
    refine .bind h.of_map fun v m₁ hv h₁ => ?_
    exact .bind (rest (.tail hv) h₁) fun vs _ _ h₂ => .pure h₂
  | tail hv => exact .after hv (.bind h fun vs _ _ h₁ => .pure h₁)
  | function => exact h
  | @initializer c args _ init hi =>
    have hnew : make (·.newInstance c) m = .ok m.heap.instances.size (m.withInstance c) := rfl
    refine .map (.after hnew (.after rfl ?_))
    simp only [hi]
    exact .after rfl (.bind h.of_map fun _ _ _ h₁ => .pure h₁)
  | @body f args _ closure hc =>
    refine .map (.after rfl ?_)
    simp only [hc]
    refine .after rfl (.bind (.inFrame h.of_map) fun ending m₁ _ h₁ => ?_)
    split
    · exact leaves_promised h₁ _
    · cases ending with
      | returned v => exact .pure h₁
      | completed => exact .pure h₁
  | expression => exact .map (.bind h.of_map fun _ _ _ h₁ => .pure h₁)
  | print => exact .map (.bind h.of_map fun _ _ _ h₁ => .after rfl (.pure h₁))
  | init => exact .map (.bind h.of_map fun v _ _ h₁ => .after rfl (.pure (hP.define h₁ hr.2.1 _ v)))
  | block => exact .map (.after rfl (.after rfl (.inFrame h.of_map)))
  | thenTest =>
    refine .map (.bind h.of_map fun v m₁ hv h₁ => ?_)
    split
    · rename_i ht
      exact (rest (.thenYes hv ht) h₁).of_map
    · exact .pure h₁
  | elseTest =>
    refine .map (.bind h.of_map fun v m₁ hv h₁ => ?_)
    split
    · rename_i ht
      exact (rest (.elseYes hv ht) h₁).of_map
    · rename_i ht
      exact (rest (.elseNo hv (by simpa using ht)) h₁).of_map
  | thenYes hv ht | elseYes hv ht | elseNo hv ht =>
    refine .map (.after hv ?_)
    simp only [ht]
    exact h.of_map
  | loopTest =>
    refine .map (.bind h.of_map fun v m₁ hv h₁ => ?_)
    split
    · rename_i ht
      refine .bind (rest (.loopBody hv ht) h₁).of_map fun c m₂ hb h₂ => ?_
      cases c with
      | returned v => exact .pure h₂
      | completed => exact (rest (.loopAgain hv ht hb) h₂).of_map
    · exact .pure h₁
  | loopBody hv ht =>
    refine .map (.after hv ?_)
    simp only [ht, if_true]
    refine .bind h.of_map fun c m₁ hb h₁ => ?_
    cases c with
    | returned v => exact .pure h₁
    | completed => exact (rest (.loopAgain hv ht hb) h₁).of_map
  | loopAgain hv ht hb =>
    refine .map (.after hv ?_)
    simp only [ht, if_true]
    exact .after hb h.of_map
  | returned => exact .map (.bind h.of_map fun _ _ _ h₁ => .pure h₁)
  | first =>
    refine .map (.bind h.of_map fun c m₁ hc h₁ => ?_)
    cases c with
    | returned v => exact .pure h₁
    | completed => exact (rest (.rest hc) h₁).of_map
  | rest hs => exact .map (.after hs h.of_map)

/-! ## Tasks from start to end -/

/-- What lasts survives the tasks of a session. By induction on the fuel; where a task begins others
it is enough to look at the first of them. -/
theorem Session.Moment.leaves (hm : Moment s clock runs n task m) (h : P m.heap) :
    Leaves P (task.run s n) m := by
  induction n generalizing task m with
  | zero => exact ends_of_error (task.run_zero s m) h
  | succ n ih =>
    have begun : ∀ {task₁ m₁}, Calls s n task m task₁ m₁ → P m₁.heap →
        Leaves P (task₁.run s n) m₁ := fun hc h₁ => ih (hm.call hc) h₁
    have first : ∀ {task₁ m₁}, Calls s n task m task₁ m₁ → P m₁.heap →
        Leaves P (task.run s (n + 1)) m := fun hc h₁ => hc.leaves w hP hm begun (begun hc h₁)
    obtain ⟨hs, site, hr⟩ := hm.ready w
    cases task with
    | evaluate e =>
      cases e with
      | literal c => exact .map (.pure h)
      | group => exact first .group h
      | unary => exact first .operand h
      | binary => exact first .left h
      | logical => exact first .test h
      | name ref | thisRef ref => exact .map (leaves_read h ref)
      | assign => exact first .assigned h
      | call => exact first .callee h
      | get => exact first .getObject h
      | set => exact first .setObject h
      | superRef ref method => exact .map (leaves_superMethod hP h ref method)
    | evaluateAll es =>
      cases es with
      | nil => exact .pure h
      | cons => exact first .head h
    | apply callee args =>
      cases callee with
      | native id =>
        refine .map ?_
        simp only [apply]
        split
        · exact leaves_runNative h _ _
        · exact .throw h
      | function f => exact first .function h
      | cls c =>
        have hnew : make (·.newInstance c) m = .ok m.heap.instances.size (m.withInstance c) := rfl
        have hlast : P (m.withInstance c).heap := hP.grows h (grows_newInstance _ c) rfl
        cases hi : (m.withInstance c).heap.initializer? c with
        | some init => exact first (.initializer hi) (hP.bindMethod hlast init _)
        | none =>
          refine .map (.after hnew (.after rfl ?_))
          simp only [hi]
          exact .pure hlast
      | _ => exact .map (.throw h)
    | runFunction f args =>
      cases hc : m.heap.functions[f]? with
      | some c => exact first (.body hc) (hP.grows h (grows_newFrame _ _) rfl)
      | none =>
        refine .map (.after rfl ?_)
        simp only [hc]
        exact .throw h
    | execute stmt =>
      cases stmt with
      | expression => exact first .expression h
      | print => exact first .print h
      | var name init =>
        cases init with
        | none => exact .map (.after rfl (.after rfl (.pure (hP.define h hr.2.1 _ _))))
        | some => exact first .init h
      | block => exact first .block (hP.grows h (grows_newFrame _ _) rfl)
      | ifThen => exact first .thenTest h
      | ifElse => exact first .elseTest h
      | loop => exact first .loopTest h
      | function decl =>
        have hnew : P (m.heap.newFunction ⟨decl, m.frame, false⟩).2 :=
          hP.grows h (grows_newFunction _ _) rfl
        have hdef := hP.grows hnew
          (grows_define _ m.frame (.function m.heap.functions.size) hr.2.1) rfl
        exact .map (.after rfl (.after rfl (.after rfl (.pure hdef))))
      | ret keyword value =>
        cases value with
        | none => exact .map (.after rfl (.pure h))
        | some => exact first .returned h
      | classDecl name superclass methods =>
        refine .map (.bind ?_ fun _ _ _ h₁ => .pure h₁)
        rw [declareClass_eq]
        cases hsup : superclassOf s superclass m with
        | error i m₁ =>
          have hsame := ((shows_superclassOf superclass).error hsup).1
          exact ends_of_error (bind_error hsup) (hsame ▸ h)
        | ok parent m₁ =>
          obtain ⟨rfl, -⟩ := (shows_superclassOf superclass).ok hsup
          have hx : execute s (n + 1) (.classDecl name superclass methods) m₁ = .ok .completed
              { m₁ with heap := classHeap m₁.heap m₁.frame name.lexeme parent methods } := by
            refine bind_ok (a := ()) ?_
            rw [declareClass_eq]
            exact bind_ok hsup
          obtain ⟨good, -⟩ := Ends.ok (Task.kept w (n + 1) hm hs hr) hx
          exact .after hsup (ends_of_ok rfl (hP.declares h good.grows))
    | executeAll stmts =>
      cases stmts with
      | nil => exact .map (.pure h)
      | cons => exact first .first h

end

/-! ## Sessions -/

namespace Session

section
variable {s : Setting} {clock : Clock} {runs : List (Nat × String)}
  (w : Watched s (ledger s clock runs) (Moment s clock runs)) {P : Heap → Prop}
  (hP : Heap.Lasts P)
include w hP

/-- The statements of an accepted source, one after the other. -/
theorem leaves_executeEach {earlier later : List (Nat × String)} {fuel : Nat} {source : String}
    (hr : runs = earlier ++ (fuel, source) :: later) (ha : (Program.compile source).Accepted) :
    ∀ (stmts before : List Stmt) {m : Machine}, (Program.compile source).bound = before ++ stmts →
      executeEach s fuel before (begun s source (after s clock earlier)) = .ok () m → P m.heap →
      Leaves P (executeEach s fuel stmts) m
  | [], _, _, _, _, h => .pure h
  | stmt :: stmts, before, m, hb, hx, h => by
    have hm := Moment.statement hr ha hb hx
    refine .bind (hm.leaves w hP h).of_map fun c m₁ hc h₁ => ?_
    exact leaves_executeEach hr ha stmts (before ++ [stmt]) (by rw [hb]; simp)
      (executeEach_append s hx hc) h₁

omit w hP in
/-- The heap after a source is the one that its statements leave, if it was accepted. -/
theorem leaves_run {s : Setting} {fuel : Nat} {source : String} {m : Machine}
    (hn : ¬ (Program.compile source).Accepted → P m.heap)
    (ha : (Program.compile source).Accepted →
      Leaves P (executeEach s fuel (Program.compile source).bound) (begun s source m)) :
    P (run s fuel source {} m).machine.heap := by
  have hran := ran s fuel source m
  generalize run s fuel source {} m = outcome at hran ⊢
  cases hran with
  | rejected hr => exact hn hr
  | finished hacc he => exact (ha hacc).ok he
  | @interrupted i m₁ frame hacc he _ =>
    have hp : P m₁.heap := (ha hacc).error he
    exact hp

/-- What lasts and holds between two sources of a session, holds at its end. -/
theorem lasts_after : ∀ {later earlier : List (Nat × String)}, runs = earlier ++ later →
    P (after s clock earlier).heap → P (after s clock runs).heap
  | [], earlier, hr, h => by
    rw [hr, List.append_nil]
    exact h
  | (fuel, source) :: later, earlier, hr, h => by
    have hr' : runs = (earlier ++ [(fuel, source)]) ++ later := by rw [hr]; simp
    refine lasts_after hr' ?_
    rw [after_append]
    exact leaves_run (fun _ => h) fun ha => leaves_executeEach w hP hr ha _ [] rfl rfl h

/-- What lasts and holds where a task of a session ends, holds at the end of the session. -/
theorem Moment.leaves_after {n : Nat} {task : Task} {m : Machine}
    (hm : Moment s clock runs n task m) (h : Leaves P (task.run s n) m) :
    P (after s clock runs).heap := by
  induction hm with
  | @statement earlier later fuel source before stmt rest m hr ha hb hx =>
    have hr' : runs = (earlier ++ [(fuel, source)]) ++ later := by rw [hr]; simp
    refine lasts_after w hP hr' ?_
    rw [after_append]
    refine leaves_run (absurd ha) fun _ => ?_
    -- the statements before have been executed; this one, and then those behind it
    have hrest : Leaves P (executeEach s fuel (stmt :: rest)) m :=
      .bind h.of_map fun c m₁ hc h₁ => leaves_executeEach w hP hr ha rest (before ++ [stmt])
        (by rw [hb]; simp) (executeEach_append s hx hc) h₁
    unfold Leaves Ends at hrest ⊢
    rwa [hb, executeEach_append_of_ok _ hx]
  | call hm hc ih =>
    exact ih (hc.leaves w hP hm (fun hc₁ h₁ => (hm.call hc₁).leaves w hP h₁) h)

end

/-- **Every heap of a session grows into its last one**: the one a task begins with, and the one it
ends with, however it ends. -/
theorem Moment.grows_after {s : Setting} {clock : Clock} {runs : List (Nat × String)}
    (w : Watched s (ledger s clock runs) (Moment s clock runs)) {n : Nat} {task : Task}
    {m : Machine} (hm : Moment s clock runs n task m) :
    m.heap.Grows (after s clock runs).heap ∧
      Leaves (·.Grows (after s clock runs).heap) (task.run s n) m := by
  have hstart := hm.leaves w (lasts_grows m.heap) (.refl _)
  refine ⟨hm.leaves_after w (lasts_grows m.heap) hstart, ?_⟩
  cases hx : task.run s n m with
  | ok vs m' =>
    have hend : Leaves m'.heap.Grows (task.run s n) m := ends_of_ok hx (.refl _)
    exact ends_of_ok hx (hm.leaves_after w (lasts_grows m'.heap) hend)
  | error i m' =>
    have hend : Leaves m'.heap.Grows (task.run s n) m := ends_of_error hx (.refl _)
    exact ends_of_error hx (hm.leaves_after w (lasts_grows m'.heap) hend)

end Session

end Lox

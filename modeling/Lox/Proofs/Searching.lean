import Lox.Proofs.Roster
import Lox.Proofs.Safety

/-!
# Distances and searching

A reference can be looked up by its distance, or by searching for its name from the current frame
outwards. In clear code both find the same frame, so a run by distances and a run by searching make
the same steps. They differ only where a distance leads to no binding, which is a broken promise of
the binding pass.

`Agrees D m x x' Q` says that of two actions; evaluation keeps it (`concords`), by induction on the
fuel. Main statement: an accepted unshadowed program has the same outcome whichever way its references
are looked up (`Session.run_searching`).
-/

namespace Lox

/-- The setting in which every reference searches for its name. -/
def Setting.searching (s : Setting) : Setting := { s with scoping := .dynamic }

namespace Exec

open Heap Eval

/-! ## Actions that agree -/

/-- The machine `m₁` is a later state of `m`, in the same frame and with a tidy heap. -/
structure Kept (D : Roster) (m : Machine) (D₁ : Roster) (m₁ : Machine) : Prop where
  tidy : Tidy D₁ m₁.heap
  later : Later D m.heap D₁ m₁.heap
  frame : m₁.frame = m.frame

/-- Unless the first action breaks a promise, both end alike in the same machine; a value, and the
heap that comes with it, are as `Q` says. -/
def Agrees {α : Type} (D : Roster) (m : Machine) (x x' : Exec α) (Q : Roster → Heap → α → Prop) :
    Prop :=
  Ends x m (fun a m₁ => x' m = .ok a m₁ ∧ ∃ D₁, Kept D m D₁ m₁ ∧ Q D₁ m₁.heap a)
    fun i m₁ => x' m = .error i m₁ ∨ ∃ b, i = .broken b

variable {α β : Type} {D D₁ D₂ : Roster} {m m₁ m₂ : Machine} {x x' : Exec α}
  {Q Q' : Roster → Heap → α → Prop} {R : Roster → Heap → β → Prop} {scopes : List (List String)}

namespace Kept

theorem refl (ht : Tidy D m.heap) : Kept D m D m := ⟨ht, .refl D m.heap, rfl⟩

theorem trans (a : Kept D m D₁ m₁) (b : Kept D₁ m₁ D₂ m₂) : Kept D m D₂ m₂ :=
  ⟨b.tidy, a.later.trans b.later, b.frame.trans a.frame⟩

theorem around (k : Kept D m D₁ m₁) (ha : Around D m.heap m.frame scopes) :
    Around D₁ m₁.heap m₁.frame scopes := by
  rw [k.frame]
  exact k.later.around ha

theorem heap {h : Heap} (ht : Tidy D₁ h) (hl : Later D m.heap D₁ h) :
    Kept D m D₁ { m with heap := h } := ⟨ht, hl, rfl⟩

end Kept

section
variable {t : Machine}

theorem agrees_of_ok {a : α} (hx : x m = .ok a t) (hx' : x' m = .ok a t) (hk : Kept D m D₁ t)
    (hq : Q D₁ t.heap a) : Agrees D m x x' Q :=
  ends_of_ok hx ⟨hx', D₁, hk, hq⟩

theorem agrees_of_error {i : Interrupt} (hx : x m = .error i t) (hx' : x' m = .error i t) :
    Agrees D m x x' Q :=
  ends_of_error hx (.inl hx')

theorem agrees_of_broken {b : Broken} (hx : x m = .error (.broken b) t) : Agrees D m x x' Q :=
  ends_of_error hx (.inr ⟨b, rfl⟩)

end

/-- An action agrees with itself if it keeps the machine tidy. -/
theorem agrees_self
    (hx : Ends x m (fun a m₁ => ∃ D₁, Kept D m D₁ m₁ ∧ Q D₁ m₁.heap a) fun _ _ => True) :
    Agrees D m x x Q := by
  cases h : x m with
  | ok a m₁ =>
    obtain ⟨D₁, hk, hq⟩ := hx.ok h
    exact agrees_of_ok h h hk hq
  | error i m₁ => exact agrees_of_error h h

/-- In particular an action that leaves the machine as it is. -/
theorem agrees_look (ht : Tidy D m.heap) {E : Interrupt → Machine → Prop}
    (hx : Ends x m (fun a m₁ => m₁ = m ∧ Q D m.heap a) E) : Agrees D m x x Q := by
  refine agrees_self (hx.mono (fun a m₁ _ hq => ?_) fun _ _ _ => trivial)
  obtain ⟨rfl, hq⟩ := hq
  exact ⟨D, .refl ht, hq⟩

theorem agrees_pure (ht : Tidy D m.heap) {a : α} (hq : Q D m.heap a) :
    Agrees D m (pure a) (pure a) Q := agrees_of_ok rfl rfl (.refl ht) hq

theorem agrees_fault (t : Token) (reason : Reason) :
    Agrees D m (fault t reason) (fault t reason) Q := agrees_of_error rfl rfl

theorem agrees_throw (i : Interrupt) : Agrees D m (throw i) (throw i) Q := agrees_of_error rfl rfl

theorem agrees_get {f f' : Machine → Exec α} (h : Agrees D m (f m) (f' m) Q) :
    Agrees D m (get >>= f) (get >>= f') Q := h

theorem agrees_heap {f f' : Heap → Exec α} (h : Agrees D m (f m.heap) (f' m.heap) Q) :
    Agrees D m (Exec.heap >>= f) (Exec.heap >>= f') Q := h

theorem agrees_make {g : Heap → α × Heap} (ht : Tidy D₁ (g m.heap).2)
    (hl : Later D m.heap D₁ (g m.heap).2) (hq : Q D₁ (g m.heap).2 (g m.heap).1) :
    Agrees D m (make g) (make g) Q :=
  agrees_of_ok (a := (g m.heap).1) (t := { m with heap := (g m.heap).2 }) rfl rfl (.heap ht hl) hq

theorem agrees_bind {f f' : α → Exec β} (hx : Agrees D m x x' Q)
    (hf : ∀ a D₁ m₁, Kept D m D₁ m₁ → Q D₁ m₁.heap a → Agrees D₁ m₁ (f a) (f' a) R) :
    Agrees D m (x >>= f) (x' >>= f') R := by
  cases h : x m with
  | error i m₁ => exact ends_of_error (bind_error h) ((Ends.error hx h).imp_left bind_error)
  | ok a m₁ =>
    obtain ⟨h', D₁, hk, hq⟩ := Ends.ok hx h
    have hrest := hf a D₁ m₁ hk hq
    cases hfa : f a m₁ with
    | error i m₂ =>
      exact ends_of_error ((bind_ok h).trans hfa) ((Ends.error hrest hfa).imp_left (bind_ok h').trans)
    | ok b m₂ =>
      obtain ⟨hfa', D₂, hk₂, hr⟩ := Ends.ok hrest hfa
      exact agrees_of_ok ((bind_ok h).trans hfa) ((bind_ok h').trans hfa') (hk.trans hk₂) hr

theorem agrees_map {g : α → β} (hx : Agrees D m x x' fun D h a => R D h (g a)) :
    Agrees D m (g <$> x) (g <$> x') R :=
  agrees_bind (f := fun a => pure (g a)) hx fun _ _ _ hk hq => agrees_pure hk.tidy hq

/-- Code in another frame leaves the machine in the frame that it was in. -/
theorem agrees_inFrame {frame : Id} (hx : Agrees D { m with frame } x x' Q) :
    Agrees D m (inFrame frame x) (inFrame frame x') Q := by
  cases h : x { m with frame } with
  | ok a m₁ =>
    obtain ⟨h', D₁, hk, hq⟩ := Ends.ok hx h
    exact agrees_of_ok (t := { m₁ with frame := m.frame }) (by simp only [inFrame, h])
      (by simp only [inFrame, h']) ⟨hk.tidy, hk.later, rfl⟩ hq
  | error i m₁ =>
    refine ends_of_error (e := i) (t := { m₁ with frame := m.frame }) (by simp only [inFrame, h]) ?_
    exact (Ends.error hx h).imp_left fun h' => by simp only [inFrame, h']

theorem agrees_asCall (s : Setting) (call : Call) (hx : Agrees D (m.enter s call) x x' Q) :
    Agrees D m (asCall s call x) (asCall s.searching call x') Q := by
  cases h : x (m.enter s call) with
  | ok a m₁ =>
    obtain ⟨h', D₁, hk, hq⟩ := Ends.ok hx h
    refine agrees_of_ok (a := a) (t := { m₁ with calls := m₁.calls.pop }) ?_ ?_
      ⟨hk.tidy, hk.later, hk.frame⟩ hq
    · simp only [Machine.enter] at h
      simp only [asCall, h]
    · simp only [Machine.enter] at h'
      simp only [asCall, Setting.searching, h']
  | error i m₁ =>
    have he := Ends.error hx h
    simp only [Machine.enter] at h he
    rcases he with h' | ⟨b, rfl⟩
    · refine agrees_of_error (i := leaving call i) (t := left i m₁) ?_ ?_
      · simp only [asCall, h]
        cases i <;> rfl
      · simp only [asCall, Setting.searching, h']
        cases i <;> rfl
    · exact agrees_of_broken (b := b) (t := m₁) (by simp only [asCall, h])

/-! ## References -/

section
variable {s : Setting} (hst : s.scoping = .static) (ht : Tidy D m.heap)
  (ha : Around D m.heap m.frame scopes)

theorem lookUp_of_get? {f : Id} {t : Token} {v : Value} (hv : m.heap.get? f t.lexeme = some v) :
    lookUp f t m = .ok v m := by
  simp only [lookUp, heap_bind, hv]
  rfl

theorem assignFrom_of_holder? {f g : Id} {t : Token} (hg : m.heap.holder? f t.lexeme = some g)
    (v : Value) : assignFrom f t v m = defineIn g t.lexeme v m := by
  simp only [assignFrom, heap_bind, hg]

include ht in
theorem ends_lookUp_clears (f : Id) (t : Token) :
    Ends (lookUp f t) m (fun v m₁ => m₁ = m ∧ Clears D m.heap v) fun _ _ => True := by
  unfold lookUp
  refine ends_bind (ends_of_ok rfl fun _ => ?_)
  cases hg : m.heap.get? f t.lexeme with
  | none => exact ends_throw trivial
  | some v =>
    obtain ⟨g, -, hl⟩ := List.exists_of_findSome?_eq_some hg
    exact ends_pure ⟨rfl, ht.values hl⟩

include hst ht ha in
/-- A reference that is clear is read alike. -/
theorem agrees_read {use : Use} {ref : Reference} (hr : Reference.Clear scopes (use, ref)) :
    Agrees D m (read s ref) (read s.searching ref) Clears := by
  have hsearch : read s.searching ref m = lookUp m.frame ref.token m := rfl
  cases hk : ref.hops with
  | none =>
    have hstatic : read s ref = lookUp globals ref.token := by
      simp only [read, hst, hk]
    have hclear : ∀ names ∈ scopes, ref.name ∉ names := by simpa [hk] using hr.1
    have hholder : m.heap.holder? m.frame ref.token.lexeme =
        m.heap.holder? globals ref.token.lexeme := holder?_of_clear ht ha hclear
    have hsame : lookUp m.frame ref.token m = lookUp globals ref.token m := by
      simp only [lookUp, heap_bind, get?_eq, hholder]
    rw [hstatic]
    have hself : Agrees D m (lookUp globals ref.token) (lookUp globals ref.token) Clears :=
      agrees_look ht (ends_lookUp_clears ht globals ref.token)
    unfold Agrees at hself ⊢
    rwa [hsearch, hsame]
  | some k =>
    have hstatic : read s ref m = promised (m.heap.getAt m.frame k ref.name) m := by
      simp only [read, hst, hk]
      rfl
    have hclear : ∀ names ∈ scopes.take (k : Int).toNat, ref.name ∉ names := by
      simpa [hk] using hr.1
    cases hv : m.heap.getAt m.frame k ref.name with
    | error b => exact agrees_of_broken (b := b) (by rw [hstatic, hv]; rfl)
    | ok v =>
      obtain ⟨hget, hc⟩ := get?_of_getAt ht ha hclear hv
      exact agrees_of_ok (by rw [hstatic, hv]; rfl) (by rw [hsearch, lookUp_of_get? hget])
        (.refl ht) hc

include ht in
theorem agrees_defineIn {f : Id} {name : String} {v : Value} (hn : f = globals ∨ name ∈ D f)
    (hv : Clears D m.heap v) :
    Agrees D m (defineIn f name v) (defineIn f name v) fun _ _ _ => True :=
  agrees_of_ok (a := ()) (t := { m with heap := m.heap.define f name v }) rfl rfl
    (.heap (ht.define hn hv) (later_edit D m.heap (.bind f name v))) trivial

include hst ht ha in
/-- A reference that is clear is assigned to alike. -/
theorem agrees_write {use : Use} {ref : Reference} (hr : Reference.Clear scopes (use, ref))
    {v : Value} (hv : Clears D m.heap v) :
    Agrees D m (write s ref v) (write s.searching ref v) fun _ _ _ => True := by
  have hsearch : write s.searching ref v m = assignFrom m.frame ref.token v m := rfl
  cases hk : ref.hops with
  | none =>
    have hstatic : write s ref v = assignFrom globals ref.token v := by
      simp only [write, hst, hk]
    have hclear : ∀ names ∈ scopes, ref.name ∉ names := by simpa [hk] using hr.1
    have hholder : m.heap.holder? m.frame ref.token.lexeme =
        m.heap.holder? globals ref.token.lexeme := holder?_of_clear ht ha hclear
    have hsame : assignFrom m.frame ref.token v m = assignFrom globals ref.token v m := by
      simp only [assignFrom, heap_bind, hholder]
    rw [hstatic]
    have hself : Agrees D m (assignFrom globals ref.token v) (assignFrom globals ref.token v)
        fun _ _ _ => True := by
      refine agrees_heap ?_
      cases hg : m.heap.holder? globals ref.token.lexeme with
      | none => exact agrees_fault _ _
      | some g => exact agrees_defineIn ht (ht.holder hg) hv
    unfold Agrees at hself ⊢
    rwa [hsearch, hsame]
  | some k =>
    have hstatic : write s ref v m =
        (promised (m.heap.slotAt m.frame k ref.name) >>= fun g => defineIn g ref.name v) m := by
      simp only [write, hst, hk]
      rfl
    have hclear : ∀ names ∈ scopes.take (k : Int).toNat, ref.name ∉ names := by
      simpa [hk] using hr.1
    cases hg : m.heap.slotAt m.frame k ref.name with
    | error b => exact agrees_of_broken (b := b) (by rw [hstatic, hg]; rfl)
    | ok g =>
      have hholder := holder?_of_slotAt ht ha hclear hg
      have hself : Agrees D m (defineIn g ref.name v) (defineIn g ref.name v) fun _ _ _ => True :=
        agrees_defineIn ht (ht.holder hholder) hv
      unfold Agrees Ends at hself ⊢
      rwa [hsearch, assignFrom_of_holder? hholder, hstatic, hg]

include hst ht ha in
/-- The frame of `this` just inside that of `super` is the nearest one. -/
theorem agrees_superParts {ref : Reference} (hr : Reference.Clear scopes (.superWord, ref)) :
    Agrees D m (superParts s ref) (superParts s.searching ref) fun _ _ _ => True := by
  obtain ⟨hname, hthis⟩ := hr.2 rfl
  cases hk : ref.hops with
  | none => exact agrees_of_broken (b := .unresolvedSuper) (by simp only [superParts, hst, hk]; rfl)
  | some k =>
    have hk' : ((k : Int) - 1).toNat = k - 1 := by omega
    have hclear : ∀ names ∈ scopes.take (k : Int).toNat, "super" ∉ names := by
      simpa [hk, hname] using hr.1
    have hclear' : ∀ names ∈ scopes.take ((k : Int) - 1).toNat, "this" ∉ names := by
      simpa [hk, hk'] using hthis
    cases hv : m.heap.getAt m.frame k "super" with
    | error b =>
      refine agrees_of_broken (b := b) (t := m) ?_
      simp only [superParts, hst, hk, get_bind, heap_bind, hv, promised_error_bind]
    | ok v =>
      cases ho : m.heap.getAt m.frame ((k : Int) - 1) "this" with
      | error b =>
        refine agrees_of_broken (b := b) (t := m) ?_
        simp only [superParts, hst, hk, get_bind, heap_bind, hv, promised_ok_bind, ho,
          promised_error_bind]
      | ok o =>
        obtain ⟨hget, -⟩ := get?_of_getAt ht ha hclear hv
        obtain ⟨hget', -⟩ := get?_of_getAt ht ha hclear' ho
        have hsuper : lookUp m.frame ref.token m = .ok v m := by
          refine lookUp_of_get? ?_
          rw [← hget, ← hname]
          rfl
        have hself : lookUp m.frame { ref.token with lexeme := "this" } m = .ok o m :=
          lookUp_of_get? hget'
        refine agrees_of_ok (a := (v, o)) (t := m) ?_ ?_ (.refl ht) trivial
        · simp only [superParts, hst, hk, get_bind, heap_bind, hv, promised_ok_bind, ho]
          rfl
        · simp only [superParts, Setting.searching, get_bind]
          rw [bind_ok hsuper, bind_ok hself]
          rfl

end

/-! ## Objects -/

section
variable (ht : Tidy D m.heap)

include ht in
theorem agrees_runNative {native : Native} (hn : native.Honest) {args : List Value}
    (hargs : ∀ a ∈ args, Clears D m.heap a) :
    Agrees D m (runNative native args) (runNative native args) Clears := by
  refine agrees_self ?_
  cases hact : native.act args m.clock with
  | mk result clock =>
    cases result with
    | ok v =>
      refine ends_of_ok (a := v) (t := { m with clock }) (by simp only [runNative, hact])
        ⟨D, ⟨ht, .refl D m.heap, rfl⟩, ?_⟩
      rcases hn args m.clock v clock hact with hp | hm
      · exact clears_of_isPlain hp
      · exact hargs v hm
    | error f =>
      exact ends_of_error (e := .fault ⟨f.token, .native f.reason, []⟩) (t := { m with clock })
        (by simp only [runNative, hact]) trivial

include ht in
theorem agrees_bindMethod {f : Id} (hw : Waits D m.heap f) (o : Id) :
    Agrees D m (make (·.bindMethod f o)) (make (·.bindMethod f o)) Closes := by
  obtain ⟨D₁, ht₁, hl, hc⟩ := ht.bindMethod hw o
  exact agrees_make ht₁ hl hc

include ht in
theorem agrees_getProperty (object : Value) (property : Token) :
    Agrees D m (Eval.getProperty object property) (Eval.getProperty object property) Clears := by
  cases object with
  | object o =>
    obtain ⟨D₁, ht₁, hl, hv⟩ := ht.getProperty o property.lexeme
    refine agrees_bind (agrees_make (Q := fun D h found => ∀ v, found = some v → Clears D h v)
      ht₁ hl hv) fun found D₂ m₂ hk hfound => ?_
    cases found with
    | none => exact agrees_fault _ _
    | some v => exact agrees_pure hk.tidy (hfound v rfl)
  | _ => exact agrees_fault _ _

variable {s : Setting} (hst : s.scoping = .static) (ha : Around D m.heap m.frame scopes)

include hst ht ha in
theorem agrees_superMethod {ref : Reference} (hr : Reference.Clear scopes (.superWord, ref))
    (method : Token) :
    Agrees D m (superMethod s ref method) (superMethod s.searching ref method) Clears := by
  unfold superMethod
  refine agrees_bind (agrees_superParts hst ht ha hr) fun parts D₁ m₁ hk _ => ?_
  obtain ⟨v, o⟩ := parts
  cases v with
  | cls c =>
    cases o with
    | object o =>
      refine agrees_heap ?_
      cases hm : m₁.heap.findMethod? c method.lexeme with
      | none => exact agrees_fault _ _
      | some p =>
        obtain ⟨d, f⟩ := p
        obtain ⟨-, hl⟩ := findMethod?_eq_some hm
        exact agrees_map (agrees_bindMethod hk.tidy (hk.tidy.methods hl) o)
    | _ => exact agrees_throw _
  | _ => exact agrees_throw _

/-! ## Declarations -/

include ht ha in
theorem agrees_define {name : Token} (hn : Declares scopes name) {v : Value}
    (hv : Clears D m.heap v) :
    Agrees D m (define name.lexeme v) (define name.lexeme v) fun _ _ _ => True :=
  agrees_defineIn ht (ha.declares hn) hv

include hst ht ha in
theorem agrees_superclassOf {superclass : Option Reference}
    (hr : ∀ ref, superclass = some ref → Reference.Clear scopes (.read, ref)) :
    Agrees D m (superclassOf s superclass) (superclassOf s.searching superclass)
      fun _ _ parent => parent.isSome = superclass.isSome := by
  cases superclass with
  | none => exact agrees_pure ht rfl
  | some ref =>
    refine agrees_bind (agrees_read hst ht ha (hr ref rfl)) fun v D₁ m₁ hk _ => ?_
    cases v with
    | cls c => exact agrees_pure hk.tidy rfl
    | _ => exact agrees_fault _ _

include ht ha in
/-- A class is made and bound, once the frame of its methods is there. -/
theorem agrees_newClass {g : Id} {outer : List (List String)} (hg : Around D m.heap g outer)
    {methods : List (FunDecl Stmt)} (hm : FunDecl.ClearAll (["this"] :: outer) methods)
    {name : Token} (hn : Declares scopes name) (parent : Option Id) :
    Agrees D m
      (do
        let table ← make (·.newMethods g methods)
        let c ← make (·.newClass ⟨name.lexeme, parent, table⟩)
        define name.lexeme (.cls c))
      (do
        let table ← make (·.newMethods g methods)
        let c ← make (·.newClass ⟨name.lexeme, parent, table⟩)
        define name.lexeme (.cls c)) fun _ _ _ => True := by
  obtain ⟨ht₁, hl₁, hwait⟩ := ht.newMethods hg hm
  have hmethods : Agrees D m (make (·.newMethods g methods)) (make (·.newMethods g methods))
      fun D h table => ∀ {n f}, table.lookup n = some f → Waits D h f := agrees_make ht₁ hl₁ hwait
  refine agrees_bind hmethods fun table D₂ m₂ hk₂ htable => ?_
  have hclass : Agrees D₂ m₂ (make (·.newClass ⟨name.lexeme, parent, table⟩))
      (make (·.newClass ⟨name.lexeme, parent, table⟩)) fun _ _ _ => True :=
    agrees_make (hk₂.tidy.newClass htable) (later_edit D₂ m₂.heap (.cls _)) trivial
  refine agrees_bind hclass fun c D₃ m₃ hk₃ _ => ?_
  exact agrees_define hk₃.tidy (hk₃.around (hk₂.around ha)) hn trivial

include hst ht ha in
theorem agrees_declareClass {name : Token} {superclass : Option Reference}
    {methods : List (FunDecl Stmt)} (hn : Declares scopes name)
    (hr : ∀ ref, superclass = some ref → Reference.Clear scopes (.read, ref))
    (hm : FunDecl.ClearAll (withClassNames superclass.isSome scopes) methods) :
    Agrees D m (declareClass s name superclass methods)
      (declareClass s.searching name superclass methods) fun _ _ _ => True := by
  unfold declareClass
  refine agrees_bind (agrees_superclassOf ht hst ha hr) fun parent D₁ m₁ hk hp => agrees_get ?_
  have ha₁ := hk.around ha
  rw [← hp] at hm
  cases parent with
  | none => exact agrees_newClass hk.tidy ha₁ ha₁ hm hn none
  | some c =>
    have hframe : Agrees D₁ m₁ (make (·.newFrame ⟨[("super", .cls c)], some m₁.frame⟩))
        (make (·.newFrame ⟨[("super", .cls c)], some m₁.frame⟩))
        fun D h g => Around D h g (["super"] :: scopes) :=
      agrees_make (hk.tidy.newFrame_singleton (v := .cls c) trivial _) (later_newFrame _ _ _ _)
        (ha₁.newFrame (ha₁.lt hk.tidy) rfl)
    exact agrees_bind hframe fun g D₂ m₂ hk₂ hg =>
      agrees_newClass hk₂.tidy (hk₂.around ha₁) hg hm hn (some c)

end

end Exec

end Lox

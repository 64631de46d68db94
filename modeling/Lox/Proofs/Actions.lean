import Lox.Proofs.Exec
import Lox.Proofs.Invariant
import Lox.Eval

/-!
# What single actions keep

The actions that evaluation is made of, started in a machine with a sound heap (`Heap.Sound`): a
reference in its place is read and assigned to without a broken promise (`ends_read`,
`ends_write`), `super` finds both its parts (`superParts_eq`), and properties, native functions and
class declarations leave a sound heap behind, grown from the one before (`Good`).
-/

namespace Lox

open Heap Exec Eval

/-! ## Good steps -/

/-- The machine `m'` is a sound later state of `m`, in the same frame. -/
structure Good (L : Ledger) (m m' : Machine) : Prop where
  sound : m'.heap.Sound L
  grows : m.heap.Grows m'.heap
  frame : m'.frame = m.frame

theorem Good.refl {L : Ledger} {m : Machine} (h : m.heap.Sound L) : Good L m m :=
  ⟨h, .refl _, rfl⟩

theorem Good.trans {L : Ledger} {m₁ m₂ m₃ : Machine} (a : Good L m₁ m₂) (b : Good L m₂ m₃) :
    Good L m₁ m₃ :=
  ⟨b.sound, a.grows.trans b.grows, b.frame.trans a.frame⟩

theorem Good.fits {L : Ledger} {m m' : Machine} (g : Good L m m') {code : Bool} {site : Site}
    (h : Fits L m.heap code m.frame site) : Fits L m'.heap code m'.frame site := by
  rw [g.frame]
  exact h.grows g.grows

/-- The action stopped with a fault and changed nothing. -/
def Faulted (m : Machine) (i : Interrupt) (m' : Machine) : Prop := m' = m ∧ ∃ f, i = .fault f

/-- The action stopped by a fault of its own, which has left no call, and changed nothing. -/
def Raised (m : Machine) (i : Interrupt) (m' : Machine) : Prop :=
  m' = m ∧ ∃ token reason, i = .fault ⟨token, reason, []⟩

theorem Raised.faulted {m m' : Machine} {i : Interrupt} (h : Raised m i m') : Faulted m i m' := by
  obtain ⟨hm, token, reason, hi⟩ := h
  exact ⟨hm, _, hi⟩

/-! ## Natives -/

/-- The value has no place in the heap. -/
def Value.isPlain : Value → Bool
  | .function _ | .cls _ | .object _ => false
  | _ => true

/-- A native function gives back a value it can have: a plain one, or one of its arguments. -/
def Native.Honest (native : Native) : Prop :=
  ∀ args clock v clock', native.act args clock = (.ok v, clock') → v.isPlain = true ∨ v ∈ args

theorem honest_clock : ∀ native ∈ [Native.clock], native.Honest := by
  intro native hm args clock v clock' h
  cases List.mem_singleton.1 hm
  cases h
  exact .inl rfl

/-- What the value stands for is in the heap. -/
def Heap.There (h : Heap) : Value → Prop
  | .function f => f < h.functions.size
  | .cls c => c < h.classes.size
  | .object o => o < h.instances.size
  | _ => True

theorem Heap.there_of_isPlain {v : Value} (hv : v.isPlain = true) (h : Heap) : h.There v := by
  cases v with
  | function _ | cls _ | object _ => cases hv
  | nil | bool _ | number _ | string _ | native _ => trivial

/-- Called in `m`, the native function gives back one of its arguments, or what is there and is no
raw method. It need not have been given what it gives back: the class of an argument, or a value
that it was called with earlier, will do. -/
def Native.Lawful (raw : Id → Prop) (native : Native) (args : List Value) (m : Machine) : Prop :=
  ∀ v clock, native.act args m.clock = (.ok v, clock) →
    v ∈ args ∨ (m.heap.There v ∧ ∀ f, v = .function f → ¬ raw f)

theorem Native.Honest.lawful {native : Native} (hn : native.Honest) (raw : Id → Prop)
    (args : List Value) (m : Machine) : native.Lawful raw args m := by
  intro v clock hact
  rcases hn args m.clock v clock hact with hp | hm
  · exact .inr ⟨there_of_isPlain hp m.heap, fun f hf => by cases hf; cases hp⟩
  · exact .inl hm

theorem has_of_isPlain {L : Ledger} {h : Heap} {v : Value} (hv : v.isPlain = true) : h.Has L v := by
  cases v with
  | function _ | cls _ | object _ => cases hv
  | nil | bool _ | number _ | string _ | native _ => trivial

/-- What is in a sound heap exists, unless it is a raw method. -/
theorem Heap.Sound.has_of_there {L : Ledger} {h : Heap} (hs : h.Sound L) {v : Value}
    (hv : h.There v) (hraw : ∀ f, v = .function f → ¬ L.raw f) : h.Has L v := by
  cases v with
  | function f =>
    have hc := Array.getElem?_eq_getElem hv
    exact ⟨_, hc, (hs.functions hc).resolve_left (hraw f rfl)⟩
  | cls c | object o => exact hv
  | nil | bool _ | number _ | string _ | native _ => exact has_of_isPlain rfl

/-! ## Actions that only look -/

section
variable {L : Ledger} {s : Setting} {m : Machine}

theorem ends_lookUp (hs : m.heap.Sound L) (frame : Id) (token : Token) :
    Ends (lookUp frame token) m (fun v m' => m' = m ∧ m.heap.Has L v) (Faulted m) := by
  unfold lookUp
  refine ends_bind (ends_of_ok rfl fun _ => ?_)
  cases hg : m.heap.get? frame token.lexeme with
  | none => exact ends_throw ⟨rfl, _, rfl⟩
  | some v =>
    obtain ⟨g, -, hl⟩ := List.exists_of_findSome?_eq_some hg
    exact ends_pure ⟨rfl, hs.values hl⟩

theorem getAt_of_ancestor? {h : Heap} {f g : Id} {k : Nat} (hg : h.ancestor? f k = some g)
    {name : String} {v : Value} (hv : (h.vars g).lookup name = some v) :
    h.getAt f k name = .ok v := by
  simp [Heap.getAt, hg, hv]

/-- A reference in its place is read without a broken promise. -/
theorem ends_read (hst : s.scoping = .static) (hs : m.heap.Sound L) {code : Bool} {site : Site}
    (hf : Fits L m.heap code m.frame site) {ref : Reference} (hr : ref.Ready site.scopes) :
    Ends (read s ref) m (fun v m' => m' = m ∧ m.heap.Has L v) (Faulted m) := by
  unfold Exec.read
  rw [hst]
  unfold Reference.Ready at hr
  cases hh : ref.hops with
  | none => exact ends_lookUp hs globals ref.token
  | some k =>
    rw [hh] at hr
    obtain ⟨g, hg, hb⟩ := hf.binds hr
    obtain ⟨v, hv⟩ := Table.binds_iff.1 hb
    refine ends_of_ok (a := v) (t := m) ?_ ⟨rfl, hs.values hv⟩
    change promised (m.heap.getAt m.frame k ref.name) m = .ok v m
    rw [getAt_of_ancestor? hg hv]
    rfl

/-- The same for `this`, which is an instance. -/
theorem ends_read_this (hst : s.scoping = .static) (hs : m.heap.Sound L) {code : Bool} {site : Site}
    (hf : Fits L m.heap code m.frame site) {ref : Reference} {K : Stmt} (hK : site.cls = some K)
    (hn : ref.name = "this") (hh : ref.hops = site.scopes.hops? "this") :
    Ends (read s ref) m (fun v m' => m' = m ∧ m.heap.Has L v) (Faulted m) := by
  refine ends_read hst hs hf ?_
  obtain ⟨k, g, o, hk, -, -⟩ := hf.receiver hK
  unfold Reference.Ready
  rw [hn, hh, Scopes.hops?_eq, hk]
  rfl

/-- Both parts of `super` are read at their distances. -/
theorem superParts_of_getAt (hst : s.scoping = .static) {ref : Reference} {k : Nat}
    (hk : ref.hops = some (k + 1)) {v w : Value}
    (hsuper : m.heap.getAt m.frame (k + 1 : Nat) "super" = .ok v)
    (hthis : m.heap.getAt m.frame k "this" = .ok w) : superParts s ref m = .ok (v, w) m := by
  have hk' : ((k + 1 : Nat) : Int) - 1 = (k : Int) := by omega
  unfold superParts
  rw [hst, hk]
  simp only [get_bind, heap_bind, hsuper, promised_ok_bind, hk', hthis]
  rfl

/-- Where `super` stands in a class with a superclass, both parts are found, and are what their
words say. -/
theorem superParts_eq (hst : s.scoping = .static) {code : Bool} {site : Site}
    (hf : Fits L m.heap code m.frame site) {ref : Reference} {K : Stmt} (hK : site.cls = some K)
    (hd : K.isDerived = true) (hh : ref.hops = site.scopes.hops? "super") :
    ∃ o c d q, superParts s ref m = .ok (.cls q, .object o) m ∧ m.heap.classOf? o = some d ∧
      m.heap.Descends d c ∧ m.heap.superclass? c = some q := by
  obtain ⟨k, t, g, o, c, d, q, C, hn, ht, hg, hthis, hsuper, ho, hdc, hC, hq, -⟩ := hf.super hK hd
  have hk : ref.hops = some (k + 1) := by rw [hh, Scopes.hops?_eq, hn]; rfl
  exact ⟨o, c, d, q,
    superParts_of_getAt hst hk (getAt_of_ancestor? hg hsuper) (getAt_of_ancestor? ht hthis), ho, hdc,
    by simp [superclass?, hC, hq]⟩

theorem ends_unaryOp (op : UnaryOp) (token : Token) (v : Value) :
    Ends (unaryOp op token v) m (fun w m' => m' = m ∧ w.isPlain = true) (Raised m) := by
  unfold unaryOp
  split
  · exact ends_pure ⟨rfl, rfl⟩
  · exact ends_pure ⟨rfl, rfl⟩
  · exact ends_throw ⟨rfl, _, _, rfl⟩

theorem ends_numericOp (token : Token) (f : Number → Number → Value)
    (hf : ∀ a b, (f a b).isPlain = true) (v w : Value) :
    Ends (numericOp token f v w) m (fun r m' => m' = m ∧ r.isPlain = true) (Raised m) := by
  unfold numericOp
  split
  · exact ends_pure ⟨rfl, hf _ _⟩
  · exact ends_throw ⟨rfl, _, _, rfl⟩

theorem ends_binaryOp (op : BinaryOp) (token : Token) (v w : Value) :
    Ends (binaryOp op token v w) m (fun r m' => m' = m ∧ r.isPlain = true) (Raised m) := by
  cases op with
  | equal | notEqual => exact ends_pure ⟨rfl, rfl⟩
  | add =>
    change Ends (addOp token v w) m _ _
    unfold addOp
    split
    · exact ends_pure ⟨rfl, rfl⟩
    · exact ends_pure ⟨rfl, rfl⟩
    · exact ends_throw ⟨rfl, _, _, rfl⟩
  | _ => exact ends_numericOp token _ (fun _ _ => rfl) v w

/-! ## Actions that change the heap -/

/-- Running an action that only makes the heap grow soundly. -/
theorem Good.heap {h : Heap} (hg : m.heap.Grows h) (hs : h.Sound L) : Good L m { m with heap := h } :=
  ⟨hs, hg, rfl⟩

theorem ends_assignFrom (hs : m.heap.Sound L) (frame : Id) {token : Token} {v : Value}
    (hn : ¬ isWord token.lexeme) (hv : m.heap.Has L v) :
    Ends (assignFrom frame token v) m (fun _ m' => Good L m m') (Faulted m) := by
  unfold assignFrom
  refine ends_bind (ends_of_ok rfl fun _ => ?_)
  cases hh : m.heap.holder? frame token.lexeme with
  | none => exact ends_throw ⟨rfl, _, rfl⟩
  | some g => exact ends_of_ok rfl (.heap (grows_define _ g v hn) (hs.define g hn hv))

/-- A reference in its place is assigned to without a broken promise. -/
theorem ends_write (hst : s.scoping = .static) (hs : m.heap.Sound L) {code : Bool} {site : Site}
    (hf : Fits L m.heap code m.frame site) {ref : Reference} (hn : ¬ isWord ref.name)
    (hr : ref.Ready site.scopes) {v : Value} (hv : m.heap.Has L v) :
    Ends (write s ref v) m (fun _ m' => Good L m m') (Faulted m) := by
  unfold Exec.write
  rw [hst]
  unfold Reference.Ready at hr
  cases hh : ref.hops with
  | none => exact ends_assignFrom hs globals hn hv
  | some k =>
    rw [hh] at hr
    obtain ⟨g, hg, hb⟩ := hf.binds hr
    have hslot : m.heap.slotAt m.frame (k : Int) ref.name = .ok g := by simp [slotAt, hg, hb]
    refine ends_of_ok (a := ()) (t := { m with heap := m.heap.define g ref.name v }) ?_
      (.heap (grows_define _ g v hn) (hs.define g hn hv))
    simp only [get_bind, heap_bind, hslot, promised_ok_bind]
    rfl

/-- The variable whose initializer is running may not be bound yet; then assigning to it breaks the
promise of the binding pass, and changes nothing. -/
theorem ends_write_pending (hst : s.scoping = .static) (hs : m.heap.Sound L) {scopes : Scopes}
    {ref : Reference} (hn : ¬ isWord ref.name) (hr : ref.Pending scopes) {v : Value}
    (hv : m.heap.Has L v) :
    Ends (write s ref v) m (fun _ m' => Good L m m')
      (fun i m' => m' = m ∧ i = .broken (.notBound ref.name 0)) := by
  unfold Exec.write
  rw [hst, hr.2]
  have hself : m.heap.ancestor? m.frame 0 = some m.frame := rfl
  by_cases hb : (m.heap.vars m.frame).binds ref.name = true
  · have hslot : m.heap.slotAt m.frame ((0 : Nat) : Int) ref.name = .ok m.frame := by
      simp [slotAt, hself, hb]
    refine ends_of_ok (a := ()) (t := { m with heap := m.heap.define m.frame ref.name v }) ?_
      (.heap (grows_define _ _ v hn) (hs.define _ hn hv))
    simp only [get_bind, heap_bind, hslot, promised_ok_bind]
    rfl
  · have hslot : m.heap.slotAt m.frame ((0 : Nat) : Int) ref.name =
        .error (.notBound ref.name 0) := by
      simp [slotAt, hself, hb]
    refine ends_of_error (e := .broken (.notBound ref.name 0)) (t := m) ?_ ⟨rfl, rfl⟩
    simp only [get_bind, heap_bind, hslot, promised_error_bind]

/-- Reading a property is done with what the heap says that it stands for. -/
theorem Eval.getProperty_object (o : Id) (t : Token) (m : Machine) :
    Eval.getProperty (.object o) t m = match m.heap.property? o t.lexeme with
      | some (.field v) => .ok v m
      | some (.method f) =>
        .ok (.function (m.heap.bindMethod f o).1) { m with heap := (m.heap.bindMethod f o).2 }
      | none => .error (.fault ⟨t, .undefinedProperty t.lexeme, []⟩) m := by
  have hmake : make (·.getProperty o t.lexeme) m = .ok (m.heap.getProperty o t.lexeme).1
      { m with heap := (m.heap.getProperty o t.lexeme).2 } := rfl
  refine (bind_ok hmake).trans ?_
  unfold Heap.getProperty
  cases m.heap.property? o t.lexeme with
  | none => rfl
  | some p => cases p <;> rfl

theorem ends_getProperty (hs : m.heap.Sound L) (object : Value) (property : Token) :
    Ends (Eval.getProperty object property) m (fun v m' => Good L m m' ∧ m'.heap.Has L v)
      (fun i m' => Good L m m' ∧ ∃ f, i = .fault f) := by
  cases object with
  | object o =>
    obtain ⟨gr, hs', hv⟩ := hs.getProperty (o := o) property.lexeme
    cases hp : m.heap.getProperty o property.lexeme with
    | mk found h' =>
      rw [hp] at gr hs' hv
      unfold Eval.getProperty
      refine ends_bind (ends_of_ok (make_eq hp) fun _ => ?_)
      cases found with
      | none => exact ends_throw ⟨.heap gr hs', _, rfl⟩
      | some v => exact ends_pure ⟨.heap gr hs', hv v rfl⟩
  | _ => exact ends_throw ⟨.refl hs, _, rfl⟩

/-- Where `super` stands in a class with a superclass, it gives a method bound to `this`, or the
class has no such method. -/
theorem ends_superMethod (hst : s.scoping = .static) (hs : m.heap.Sound L) {code : Bool}
    {site : Site} (hf : Fits L m.heap code m.frame site) {ref : Reference} {K : Stmt}
    (hK : site.cls = some K) (hd : K.isDerived = true)
    (hh : ref.hops = site.scopes.hops? "super") (method : Token) :
    Ends (superMethod s ref method) m (fun v m' => Good L m m' ∧ m'.heap.Has L v) (Faulted m) := by
  obtain ⟨o, c, d, q, hparts, ho, hdc, hq⟩ := superParts_eq hst hf hK hd hh
  unfold superMethod
  refine ends_bind (ends_of_ok hparts fun _ => ?_)
  refine ends_bind (ends_of_ok rfl fun _ => ?_)
  cases hm : m.heap.findMethod? q method.lexeme with
  | none => exact ends_throw ⟨rfl, _, rfl⟩
  | some p =>
    obtain ⟨e, f⟩ := p
    obtain ⟨hqe, hl⟩ := findMethod?_eq_some hm
    obtain ⟨gr, hs', hv⟩ := hs.bindMethod (hs.methods hl) ho (hdc.trans (.step hq hqe))
    exact ends_map (ends_of_ok rfl ⟨.heap gr hs', hv⟩)

theorem ends_runNative {native : Native} {args : List Value} (hn : native.Lawful L.raw args m)
    (hs : m.heap.Sound L) (ha : ∀ a ∈ args, m.heap.Has L a) :
    Ends (runNative native args) m (fun v m' => Good L m m' ∧ m'.heap.Has L v)
      (fun i m' => Good L m m' ∧ ∃ f, i = .fault f) := by
  cases hact : native.act args m.clock with
  | mk result clock =>
    have hg : Good L m { m with clock } := ⟨hs, .refl _, rfl⟩
    cases result with
    | ok v =>
      refine ends_of_ok (a := v) (t := { m with clock }) (by simp only [runNative, hact]) ⟨hg, ?_⟩
      rcases hn v clock hact with hm | ⟨hv, hraw⟩
      · exact ha v hm
      · exact hs.has_of_there hv hraw
    | error f =>
      exact ends_of_error (e := .fault ⟨f.token, .native f.reason, []⟩) (t := { m with clock })
        (by simp only [runNative, hact]) ⟨hg, _, rfl⟩

/-! ## Declaring a class -/

/-- The frame in which the methods of a class are made. -/
def methodFrame (h : Heap) (current : Id) (parent : Option Id) : Id × Heap :=
  match parent with
  | some c => h.newFrame ⟨[("super", .cls c)], some current⟩
  | none => (current, h)

/-- The heap after a class declaration. -/
def classHeap (h : Heap) (current : Id) (name : String) (parent : Option Id)
    (methods : List (FunDecl Stmt)) : Heap :=
  let (frame, h₁) := methodFrame h current parent
  let (table, h₂) := h₁.newMethods frame methods
  h₂.declared current name ⟨name, parent, table⟩

/-- A class declaration makes its class in one go once the superclass is known. -/
theorem declareClass_eq (s : Setting) (name : Token) (superclass : Option Reference)
    (methods : List (FunDecl Stmt)) :
    declareClass s name superclass methods = (do
      let parent ← superclassOf s superclass
      modify fun m =>
        { m with heap := classHeap m.heap m.frame name.lexeme parent methods }) := by
  unfold declareClass
  congr 1
  funext parent
  cases parent <;> rfl

theorem ends_superclassOf (hst : s.scoping = .static) (hs : m.heap.Sound L) {code : Bool}
    {site : Site} (hf : Fits L m.heap code m.frame site) {superclass : Option Reference}
    (hr : ∀ ref, superclass = some ref → ref.Ready site.scopes) :
    Ends (superclassOf s superclass) m (fun parent m' => m' = m ∧
      parent.isSome = superclass.isSome ∧ ∀ q, parent = some q → q < m.heap.classes.size)
      (Faulted m) := by
  cases superclass with
  | none => exact ends_pure ⟨rfl, rfl, fun q hq => by cases hq⟩
  | some ref =>
    refine ends_bind ((ends_read hst hs hf (hr ref rfl)).mono (fun v m' _ hv _ => ?_)
      (fun i m' hi => hi))
    obtain ⟨rfl, hv⟩ := hv
    cases v with
    | cls c => exact ends_pure ⟨rfl, rfl, fun q hq => by cases hq; exact hv⟩
    | _ => exact ends_throw ⟨rfl, _, rfl⟩

theorem declare_isDerived {name : Token} {superclass : Option Reference}
    {methods : List (FunDecl Stmt)} :
    (Stmt.classDecl name superclass methods).isDerived = superclass.isSome := rfl

/-- The class that a declaration makes is sound, and its name is bound where the code stands. -/
theorem classHeap_sound (hs : m.heap.Sound L) {site : Site}
    (hf : Fits L m.heap true m.frame site) {name : Token} {superclass : Option Reference}
    {methods : List (FunDecl Stmt)}
    (hsc : Stmt.Scoped L.excused site (.classDecl name superclass methods))
    {parent : Option Id} (hp : parent.isSome = superclass.isSome)
    (hmade : ∀ C, (classHeap m.heap m.frame name.lexeme parent methods).classes[m.heap.classes.size]? =
      some C → L.made m.heap.classes.size m.heap.frames.size C (.classDecl name superclass methods))
    (hraw : ∀ f, m.heap.functions.size ≤ f →
      f < (classHeap m.heap m.frame name.lexeme parent methods).functions.size → L.raw f)
    (hq : ∀ q, parent = some q → q < m.heap.classes.size) :
    m.heap.Grows (classHeap m.heap m.frame name.lexeme parent methods) ∧
      (classHeap m.heap m.frame name.lexeme parent methods).Sound L ∧
      Fits L (classHeap m.heap m.frame name.lexeme parent methods) true m.frame
        { site with scopes := site.scopes.declare name true } := by
  obtain ⟨hn, -, hms⟩ := hsc
  cases hmf : methodFrame m.heap m.frame parent with
  | mk g h₁ =>
    cases hnm : h₁.newMethods g methods with
    | mk table h₂ =>
      have heq : classHeap m.heap m.frame name.lexeme parent methods =
          h₂.declared m.frame name.lexeme ⟨name.lexeme, parent, table⟩ := by
        simp only [classHeap, hmf, hnm]
      obtain ⟨gr2, ⟨functions, hfun⟩, htable⟩ := newMethods_spec h₁ g methods
      rw [hnm] at gr2 hfun htable
      change h₂ = _ at hfun
      -- the frame of the methods: sound, and as far out as the superclass asks
      have h1 : m.heap.Grows h₁ ∧ h₁.Sound L ∧ h₁.classes = m.heap.classes ∧
          h₁.functions = m.heap.functions := by
        cases parent with
        | none => cases hmf; exact ⟨.refl _, hs, rfl, rfl⟩
        | some q =>
          cases hmf
          refine ⟨grows_newFrame _ _, hs.newFrame fun {other v} hl => ?_, rfl, rfl⟩
          simp only [List.lookup_cons, List.lookup_nil] at hl
          split at hl
          · cases hl
            exact hq q rfl
          · cases hl
      obtain ⟨gr1, hs1, hcl1, hfn1⟩ := h1
      have gr3 := grows_declared h₂ m.frame hn ⟨name.lexeme, parent, table⟩
      -- the functions that were not there before are the methods of the class
      have hnew : ∀ {f c}, h₂.functions[f]? = some c → h₁.functions[f]? = some c ∨ L.raw f := by
        intro f c hc
        cases hf₁ : h₁.functions[f]? with
        | some c₁ =>
          cases (gr2.functions hf₁).symm.trans hc
          exact .inl rfl
        | none =>
          rw [Array.getElem?_eq_none_iff, hfn1] at hf₁
          refine .inr (hraw f hf₁ ?_)
          rw [heq]
          exact (Array.getElem?_eq_some_iff.1 (gr3.functions hc)).1
      have hs2 : h₂.Sound L := hs1.of_grows gr2 (by rw [hfun]) (by rw [hfun])
        (fun hl => (hnew hl).imp_right .inl) (fun hl => .inl (by rw [hfun] at hl; exact hl))
      have hcl2 : h₂.classes = m.heap.classes := by rw [hfun]; exact hcl1
      have gr := gr1.trans (gr2.trans gr3)
      have hfits : Fits L (h₂.declared m.frame name.lexeme ⟨name.lexeme, parent, table⟩) true
          m.frame { site with scopes := site.scopes.declare name true } :=
        (hf.grows (gr1.trans (gr2.trans (grows_newClass h₂ _)))).declare hn
      rw [heq] at hmade ⊢
      refine ⟨gr, hs2.declared m.frame hn (fun q he => by rw [hcl2]; exact hq q he)
        (fun n f hl => ?_), hfits⟩
      obtain ⟨decl, hm, hfn, -⟩ := htable n f hl
      refine ⟨⟨decl, g, decl.isInitializer⟩, m.frame, .classDecl name superclass methods,
        _, _, site.cls, gr3.functions hfn, ?_, hfits, FunDecl.ScopedAll.mem hms hm⟩
      unfold Home
      rw [declare_isDerived, ← hp]
      cases parent with
      | none => cases hmf; exact ⟨rfl, rfl⟩
      | some q =>
        cases hmf
        have hC := getElem?_declared h₂ m.frame name.lexeme ⟨name.lexeme, some q, table⟩
        refine ⟨q, _, ?_, ?_, hcl2 ▸ hmade _ (hcl2 ▸ hC), hC, rfl, rfl⟩
        · exact (gr2.trans gr3).parent? (parent?_newFrame_self m.heap _)
        · exact (gr2.trans gr3).word (.inr rfl)
            (congrArg (·.lookup "super") (vars_newFrame_self m.heap ⟨[("super", .cls q)], some m.frame⟩))

/-- Declaring a class, in a frame its code fits. -/
theorem ends_declareClass (hst : s.scoping = .static) (hs : m.heap.Sound L) {site : Site}
    (hf : Fits L m.heap true m.frame site) {name : Token} {superclass : Option Reference}
    {methods : List (FunDecl Stmt)}
    (hsc : Stmt.Scoped L.excused site (.classDecl name superclass methods))
    (hmade : ∀ m' C, declareClass s name superclass methods m = .ok () m' →
      m'.heap.classes[m.heap.classes.size]? = some C →
      L.made m.heap.classes.size m.heap.frames.size C (.classDecl name superclass methods))
    (hraw : ∀ m' f, declareClass s name superclass methods m = .ok () m' →
      m.heap.functions.size ≤ f → f < m'.heap.functions.size → L.raw f) :
    Ends (declareClass s name superclass methods) m
      (fun _ m' => Good L m m' ∧
        Fits L m'.heap true m'.frame { site with scopes := site.scopes.declare name true })
      (Faulted m) := by
  rw [declareClass_eq] at hmade hraw ⊢
  refine ends_bind ((ends_superclassOf hst hs hf hsc.2.1).mono (fun parent m' hpar hp _ => ?_)
    (fun i m' hi => hi))
  obtain ⟨rfl, hp, hq⟩ := hp
  obtain ⟨gr, hs', hfits⟩ := classHeap_sound hs hf hsc hp (fun C hC => hmade _ C (bind_ok hpar) hC)
    (fun f hle hlt => hraw _ f (bind_ok hpar) hle hlt) hq
  exact ends_of_ok rfl ⟨.heap gr hs', hfits⟩

end

end Lox

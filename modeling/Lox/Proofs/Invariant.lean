import Lox.Proofs.Placement
import Lox.Machine

/-!
# The run-time invariant

`Fits L h code f site`: the chain of frames from `f` is built like the scopes of `site`, and binds
what they have ready. A frame of `this` is a receiver for the methods of the class statement around
the code, and the frame of `super` outside it holds that class's superclass; which class that is
stands in the ledger `L`.

`Heap.Sound L h`: every value that a heap holds exists in it (`Heap.Has`). Its functions run where
their code fits (`Heap.Runs`), except for raw methods: a class statement makes them without a
receiver, and they wait for one to fit (`Heap.MethodOk`). The lemmas below say that each operation
of a run keeps a heap sound.
-/

namespace Lox

/-- What a proof keeps about a session from outside: the assignments that are let through, which
class statement made the class at place `c` with its methods in the frame `g`, and which functions
are methods as a class statement made them, without a receiver. -/
structure Ledger where
  excused : Expr → Prop
  made : (c g : Id) → Class → Stmt → Prop
  raw : Id → Prop

/-! ## Descent -/

namespace Heap

/-- `d` is the class `c` or an ancestor of it. -/
inductive Descends (h : Heap) : Id → Id → Prop
  | refl (c : Id) : Descends h c c
  | step {c p d : Id} (hp : h.superclass? c = some p) (hd : Descends h p d) : Descends h c d

theorem Descends.trans {h : Heap} {c d e : Id} (h1 : h.Descends c d) (h2 : h.Descends d e) :
    h.Descends c e := by
  induction h1 with
  | refl => exact h2
  | step hp _ ih => exact .step hp (ih h2)

theorem Grows.descends {h h' : Heap} (g : h.Grows h') {c d : Id} (hd : h.Descends c d) :
    h'.Descends c d := by
  induction hd with
  | refl => exact .refl _
  | step hp _ ih => exact .step (g.superclass? hp) ih

theorem descends_of_mem_lineageWithin {h : Heap} :
    ∀ {n : Nat} {c d : Id}, d ∈ h.lineageWithin n c → h.Descends c d
  | n + 1, c, d, hm => by
    unfold lineageWithin at hm
    rcases List.mem_cons.1 hm with rfl | hm
    · exact .refl _
    · cases hp : h.superclass? c with
      | none => simp [hp] at hm
      | some p =>
        rw [hp] at hm
        exact .step hp (descends_of_mem_lineageWithin hm)

theorem lineageWithin_congr {h h' : Heap} (hc : h'.classes = h.classes) (n : Nat) (c : Id) :
    h'.lineageWithin n c = h.lineageWithin n c := by
  have hs : ∀ c, h'.superclass? c = h.superclass? c := fun c => by simp [superclass?, hc]
  induction n generalizing c with
  | zero => rfl
  | succ n ih =>
    unfold lineageWithin
    rw [hs]
    cases h.superclass? c with
    | none => rfl
    | some p => simp only [ih]

/-- Which method a name finds depends on the classes alone. -/
theorem findMethod?_congr {h h' : Heap} (hc : h'.classes = h.classes) (c : Id) (name : String) :
    h'.findMethod? c name = h.findMethod? c name := by
  have hm : ∀ d, h'.methods d = h.methods d := fun d => by simp [methods, hc]
  simp only [findMethod?, lineage, lineageWithin_congr hc, hm]

/-- A method is found in an ancestor, in whose own table it stands. -/
theorem findMethod?_eq_some {h : Heap} {c d f : Id} {name : String}
    (hf : h.findMethod? c name = some (d, f)) :
    h.Descends c d ∧ (h.methods d).lookup name = some f := by
  obtain ⟨e, hm, he⟩ := List.exists_of_findSome?_eq_some hf
  obtain ⟨f', hl, he⟩ := Option.map_eq_some_iff.1 he
  cases he
  exact ⟨descends_of_mem_lineageWithin hm, hl⟩

theorem field_of_property? {h : Heap} {o : Id} {name : String} {v : Value}
    (hp : h.property? o name = some (.field v)) : (h.fields o).lookup name = some v := by
  unfold property? at hp
  split at hp
  · rename_i hl
    cases hp
    exact hl
  · obtain ⟨c, -, hp⟩ := Option.bind_eq_some_iff.1 hp
    obtain ⟨_, -, he⟩ := Option.map_eq_some_iff.1 hp
    cases he

/-- A property that is a method stands in the table of an ancestor of the instance's class. -/
theorem method_of_property? {h : Heap} {o f : Id} {name : String}
    (hp : h.property? o name = some (.method f)) :
    ∃ c d, h.classOf? o = some c ∧ h.Descends c d ∧ (h.methods d).lookup name = some f := by
  unfold property? at hp
  split at hp
  · cases hp
  · obtain ⟨c, hc, hp⟩ := Option.bind_eq_some_iff.1 hp
    obtain ⟨⟨d, g⟩, hf, he⟩ := Option.map_eq_some_iff.1 hp
    cases he
    exact ⟨c, d, hc, findMethod?_eq_some hf⟩

/-! ## Frames and scopes -/

/-- How the frame `g` of the methods of class `c` stands to the frame `p` in which the class
statement `K` was executed: `g` is `p`, or, if the class has a superclass, a frame of its own that
holds it. -/
def Home (L : Ledger) (h : Heap) (c g p : Id) (K : Stmt) (scopes outer : Scopes) : Prop :=
  if K.isDerived then
    ∃ q C, h.parent? g = some p ∧ (h.vars g).lookup "super" = some (.cls q) ∧ L.made c g C K ∧
      h.classes[c]? = some C ∧ C.superclass = some q ∧ scopes = [("super", true)] :: outer
  else g = p ∧ scopes = outer

theorem Grows.home {L : Ledger} {h h' : Heap} (gr : h.Grows h') {c g p : Id} {K : Stmt}
    {scopes outer : Scopes} (hh : Home L h c g p K scopes outer) :
    Home L h' c g p K scopes outer := by
  unfold Home at hh ⊢
  split
  · rename_i hK
    rw [if_pos hK] at hh
    obtain ⟨q, C, hp, hs, hm, hC, hq, he⟩ := hh
    exact ⟨q, C, gr.parent? hp, gr.word (.inr rfl) hs, hm, gr.classes hC, hq, he⟩
  · rename_i hK
    rwa [if_neg hK] at hh

theorem ancestor?_succ {h : Heap} {f p : Id} (hp : h.parent? f = some p) (k : Nat) :
    h.ancestor? f (k + 1) = h.ancestor? p k := by
  simp [ancestor?, hp]

/-- The frames from `f` outwards are built like the scopes of a site (module doc). `code` tells the
frames in which code runs from those that only hold `this`. -/
inductive Fits (L : Ledger) (h : Heap) : (code : Bool) → Id → Site → Prop
  | globals : Fits L h true globals ⟨[], none⟩
  | scope {code f p scope outer cls} (hp : h.parent? f = some p)
      (hw : ∀ name, isWord name → scope.lookup name = none)
      (hb : ∀ name, scope.lookup name = some true → (h.vars f).binds name = true)
      (ho : Fits L h code p ⟨outer, cls⟩) : Fits L h true f ⟨scope :: outer, cls⟩
  | this {f g p o c d K scopes outer cls} (hg : h.parent? f = some g)
      (ht : (h.vars f).lookup "this" = some (.object o)) (ho : h.classOf? o = some d)
      (hd : h.Descends d c) (hh : Home L h c g p K scopes outer)
      (hp : Fits L h true p ⟨outer, cls⟩) : Fits L h false f ⟨[("this", true)] :: scopes, some K⟩

variable {L : Ledger} {h h' : Heap}

theorem Fits.grows (gr : h.Grows h') {code : Bool} {f : Id} {site : Site}
    (hf : Fits L h code f site) : Fits L h' code f site := by
  induction hf with
  | globals => exact .globals
  | scope hp hw hb _ ih => exact .scope (gr.parent? hp) hw (fun n hn => gr.binds (hb n hn)) ih
  | this hg ht ho hd hh _ ih =>
    exact .this (gr.parent? hg) (gr.word (.inl rfl) ht) (gr.classOf? ho) (gr.descends hd)
      (gr.home hh) ih

/-- The frame that binds a ready name is as far out as its scope. -/
theorem Fits.binds {code : Bool} {f : Id} {site : Site} (hf : Fits L h code f site)
    {name : String} {k : Nat} (hn : site.scopes.find? name = some (k, true)) :
    ∃ g, h.ancestor? f k = some g ∧ (h.vars g).binds name = true := by
  induction hf generalizing k with
  | globals => cases hn
  | @scope code f p scope outer cls hp hw hb ho ih =>
    cases hl : scope.lookup name with
    | some ready =>
      rw [Scopes.find?_cons_of_some outer hl] at hn
      cases hn
      exact ⟨f, rfl, hb name hl⟩
    | none =>
      obtain ⟨j, rfl, hj⟩ := Scopes.find?_cons_of_none hl hn
      rw [ancestor?_succ hp]
      exact ih hj
  | @this f g p o c d K scopes outer cls hg ht ho hd hh hp ih =>
    by_cases hthis : name = "this"
    · subst hthis
      cases hn
      exact ⟨f, rfl, Table.binds_iff.2 ⟨_, ht⟩⟩
    obtain ⟨j, rfl, hj⟩ := Scopes.find?_cons_of_none (Scopes.lookup_word_of_ne hthis) hn
    rw [ancestor?_succ hg]
    unfold Home at hh
    split at hh
    · obtain ⟨q, C, hgp, hs, -, -, -, rfl⟩ := hh
      by_cases hsuper : name = "super"
      · subst hsuper
        cases hj
        exact ⟨g, rfl, Table.binds_iff.2 ⟨_, hs⟩⟩
      obtain ⟨i, rfl, hi⟩ := Scopes.find?_cons_of_none (Scopes.lookup_word_of_ne hsuper) hj
      rw [ancestor?_succ hgp]
      exact ih hi
    · obtain ⟨rfl, rfl⟩ := hh
      exact ih hj

/-- Inside a class, `this` is bound to an instance. -/
theorem Fits.receiver {code : Bool} {f : Id} {site : Site} (hf : Fits L h code f site) {K : Stmt}
    (hK : site.cls = some K) :
    ∃ k g o, site.scopes.find? "this" = some (k, true) ∧ h.ancestor? f k = some g ∧
      (h.vars g).lookup "this" = some (.object o) := by
  induction hf with
  | globals => cases hK
  | scope hp hw hb ho ih =>
    obtain ⟨k, g, o, hn, hg, hl⟩ := ih hK
    refine ⟨k + 1, g, o, ?_, ?_, hl⟩
    · simp [Scopes.find?, hw "this" (.inl rfl), hn]
    · rw [ancestor?_succ hp, hg]
  | @this f g p o c d K scopes outer cls hg ht ho hd hh hp ih => exact ⟨0, f, o, rfl, rfl, ht⟩

/-- Inside a class with a superclass, the frames of `this` and `super` belong to the class that the
class statement around the code has made. -/
theorem Fits.super {code : Bool} {f : Id} {site : Site} (hf : Fits L h code f site) {K : Stmt}
    (hK : site.cls = some K) (hd : K.isDerived = true) :
    ∃ k t g o c d q C, site.scopes.find? "super" = some (k + 1, true) ∧ h.ancestor? f k = some t ∧
      h.ancestor? f (k + 1) = some g ∧ (h.vars t).lookup "this" = some (.object o) ∧
      (h.vars g).lookup "super" = some (.cls q) ∧ h.classOf? o = some d ∧ h.Descends d c ∧
      h.classes[c]? = some C ∧ C.superclass = some q ∧ L.made c g C K := by
  induction hf with
  | globals => cases hK
  | scope hp hw hb ho ih =>
    obtain ⟨k, t, g, o, c, d, q, C, hn, ht, hg, hrest⟩ := ih hK
    refine ⟨k + 1, t, g, o, c, d, q, C, ?_, ?_, ?_, hrest⟩
    · simp [Scopes.find?, hw "super" (.inr rfl), hn]
    · rw [ancestor?_succ hp, ht]
    · rw [ancestor?_succ hp, hg]
  | @this f g p o c d K' scopes outer cls hg ht ho hdc hh hp ih =>
    cases hK
    unfold Home at hh
    rw [if_pos hd] at hh
    obtain ⟨q, C, hgp, hs, hm, hC, hq, rfl⟩ := hh
    exact ⟨0, f, g, o, c, d, q, C, rfl, rfl, ancestor?_succ hg 0, ht, hs, ho, hdc, hC, hq, hm⟩

/-- A frame in which code runs still fits when a name has been bound in it. -/
theorem Fits.declare {f : Id} {site : Site} (hf : Fits L h true f site) {name : Token} {v : Value}
    (hn : ¬ isWord name.lexeme) :
    Fits L (h.define f name.lexeme v) true f
      { site with scopes := site.scopes.declare name true } := by
  have gr := grows_define h f v hn
  cases hf with
  | globals => exact .globals
  | @scope code f p scope outer cls hp hw hb ho =>
    refine .scope (gr.parent? hp) (fun other hother => ?_) (fun other hother => ?_) (ho.grows gr)
    · rw [List.lookup_cons]
      have hne : (other == name.lexeme) = false := by
        simp only [beq_eq_false_iff_ne]
        exact fun he => hn (he ▸ hother)
      rw [hne]
      exact hw other hother
    · rw [List.lookup_cons] at hother
      obtain ⟨frame, hfr, -⟩ := parent?_eq_some hp
      have hlt := (Array.getElem?_eq_some_iff.1 hfr).1
      by_cases he : other = name.lexeme
      · rw [he, vars_define, if_pos ⟨rfl, hlt⟩]
        exact Table.binds_insert_self _ _ _
      · have hne : (other == name.lexeme) = false := by simpa using he
        rw [hne] at hother
        exact gr.binds (hb other hother)

/-! ## Values -/

/-- The closure can be run: its code fits its frame, and an initializer finds its instance there. -/
def Runs (L : Ledger) (h : Heap) (c : Closure) : Prop :=
  ∃ code site, Fits L h code c.frame site ∧ FunDecl.Scoped L.excused site c.decl ∧
    (c.isInitializer = true →
      ∃ o, (h.vars c.frame).lookup "this" = some (.object o) ∧ o < h.instances.size)

/-- The value exists. -/
def Has (L : Ledger) (h : Heap) : Value → Prop
  | .function f => ∃ c, h.functions[f]? = some c ∧ h.Runs L c
  | .cls c => c < h.classes.size
  | .object o => o < h.instances.size
  | _ => True

/-- The function `f` is a method of class `c`: its code fits as soon as it has a receiver. -/
def MethodOk (L : Ledger) (h : Heap) (c f : Id) : Prop :=
  ∃ closure p K scopes outer cls, h.functions[f]? = some closure ∧
    Home L h c closure.frame p K scopes outer ∧ Fits L h true p ⟨outer, cls⟩ ∧
    FunDecl.Scoped L.excused ⟨[("this", true)] :: scopes, some K⟩ closure.decl

/-- A sound heap (module doc). -/
structure Sound (L : Ledger) (h : Heap) : Prop where
  values : ∀ {f : Id} {name : String} {v : Value}, (h.vars f).lookup name = some v → h.Has L v
  fields : ∀ {o : Id} {name : String} {v : Value}, (h.fields o).lookup name = some v → h.Has L v
  functions : ∀ {f : Id} {c : Closure}, h.functions[f]? = some c → L.raw f ∨ h.Runs L c
  classes : ∀ {o c : Id}, h.classOf? o = some c → c < h.classes.size
  supers : ∀ {c p : Id}, h.superclass? c = some p → p < c
  methods : ∀ {c f : Id} {name : String}, (h.methods c).lookup name = some f → h.MethodOk L c f

theorem Grows.instances_size (gr : h.Grows h') : h.instances.size ≤ h'.instances.size := by
  cases hs : h.instances.size with
  | zero => exact Nat.zero_le _
  | succ n =>
    obtain ⟨o, ho⟩ : ∃ o, h.instances[n]? = some o := ⟨_, Array.getElem?_eq_getElem (by omega)⟩
    obtain ⟨o', ho', -⟩ := gr.instances ho
    exact (Array.getElem?_eq_some_iff.1 ho').1

theorem Grows.runs (gr : h.Grows h') {c : Closure} (hc : h.Runs L c) : h'.Runs L c := by
  obtain ⟨code, site, hf, hs, hi⟩ := hc
  refine ⟨code, site, hf.grows gr, hs, fun h1 => ?_⟩
  obtain ⟨o, ho, hlt⟩ := hi h1
  exact ⟨o, gr.word (.inl rfl) ho, Nat.lt_of_lt_of_le hlt gr.instances_size⟩

theorem Grows.has (gr : h.Grows h') {v : Value} (hv : h.Has L v) : h'.Has L v := by
  cases v with
  | function f =>
    obtain ⟨c, hc, hr⟩ := hv
    exact ⟨c, gr.functions hc, gr.runs hr⟩
  | cls c => exact Nat.lt_of_lt_of_le hv gr.classes_size
  | object o => exact Nat.lt_of_lt_of_le hv gr.instances_size
  | nil | bool b | number n | string s | native id => trivial

theorem Grows.methodOk (gr : h.Grows h') {c f : Id} (hm : h.MethodOk L c f) :
    h'.MethodOk L c f := by
  obtain ⟨closure, p, K, scopes, outer, cls, hc, hh, hf, hs⟩ := hm
  exact ⟨closure, p, K, scopes, outer, cls, gr.functions hc, gr.home hh, hf.grows gr, hs⟩

/-- A heap grown without new classes and instances is sound if its functions and variables are. -/
theorem Sound.of_grows (hs : h.Sound L) (gr : h.Grows h') (hc : h'.classes = h.classes)
    (hi : h'.instances = h.instances)
    (hf : ∀ {f : Id} {c : Closure}, h'.functions[f]? = some c →
      h.functions[f]? = some c ∨ L.raw f ∨ h'.Runs L c)
    (hv : ∀ {f : Id} {name : String} {v : Value}, (h'.vars f).lookup name = some v →
      (h.vars f).lookup name = some v ∨ h'.Has L v) : h'.Sound L where
  values hl := (hv hl).elim (fun h1 => gr.has (hs.values h1)) id
  fields {o name v} hl := by
    rw [show h'.fields o = h.fields o by simp [Heap.fields, hi]] at hl
    exact gr.has (hs.fields hl)
  functions hl := (hf hl).elim (fun h1 => (hs.functions h1).imp_right gr.runs) id
  classes {o c} ho := by
    rw [show h'.classOf? o = h.classOf? o by simp [classOf?, hi]] at ho
    rw [hc]
    exact hs.classes ho
  supers {c p} hp := by
    rw [show h'.superclass? c = h.superclass? c by simp [superclass?, hc]] at hp
    exact hs.supers hp
  methods {c f name} hm := by
    rw [show h'.methods c = h.methods c by simp [Heap.methods, hc]] at hm
    exact gr.methodOk (hs.methods hm)

/-! ## Every operation keeps a heap sound -/

theorem vars_newFrame (h : Heap) (frame : Frame) (f : Id) :
    (h.newFrame frame).2.vars f = if f = h.frames.size then frame.vars else h.vars f := by
  unfold vars
  rw [getElem?_newFrame]
  split <;> rfl

theorem vars_newFrame_self (h : Heap) (frame : Frame) :
    (h.newFrame frame).2.vars h.frames.size = frame.vars := by
  rw [vars_newFrame, if_pos rfl]

theorem parent?_newFrame_self (h : Heap) (frame : Frame) :
    (h.newFrame frame).2.parent? h.frames.size = frame.parent := by
  unfold parent?
  rw [getElem?_newFrame, if_pos rfl]
  rfl

theorem Sound.newFrame (hs : h.Sound L) {frame : Frame}
    (hv : ∀ {name : String} {v : Value}, frame.vars.lookup name = some v → h.Has L v) :
    (h.newFrame frame).2.Sound L := by
  have gr := grows_newFrame h frame
  refine hs.of_grows gr rfl rfl .inl fun {f name v} hl => ?_
  rw [vars_newFrame] at hl
  split at hl
  · exact .inr (gr.has (hv hl))
  · exact .inl hl

theorem Sound.newFunction (hs : h.Sound L) {c : Closure} (hc : (h.newFunction c).2.Runs L c) :
    (h.newFunction c).2.Sound L := by
  refine hs.of_grows (grows_newFunction h c) rfl rfl (fun hl => ?_) .inl
  rcases eq_or_of_newFunction hl with h1 | rfl
  · exact .inl h1
  · exact .inr (.inr hc)

theorem Sound.define (hs : h.Sound L) (f : Id) {name : String} {v : Value} (hn : ¬ isWord name)
    (hv : h.Has L v) : (h.define f name v).Sound L := by
  have gr := grows_define h f v hn
  refine hs.of_grows gr rfl rfl .inl fun hl => ?_
  rcases eq_or_of_define hl with h1 | rfl
  · exact .inl h1
  · exact .inr (gr.has hv)

/-- Making a function and binding its name, by which the function may call itself. -/
theorem Sound.declareFunction (hs : h.Sound L) (f : Id) {name : String} (hn : ¬ isWord name)
    {c : Closure}
    (hc : ((h.newFunction c).2.define f name (.function h.functions.size)).Runs L c) :
    ((h.newFunction c).2.define f name (.function h.functions.size)).Sound L := by
  have gr := (grows_newFunction h c).trans (grows_define _ f (.function h.functions.size) hn)
  refine hs.of_grows gr rfl rfl (fun hl => ?_) fun hl => ?_
  · rcases eq_or_of_newFunction hl with h1 | rfl
    · exact .inl h1
    · exact .inr (.inr hc)
  · rcases eq_or_of_define hl with h1 | rfl
    · exact .inl h1
    · exact .inr ⟨c, by simp [Heap.newFunction, Heap.define], hc⟩

theorem classOf?_newInstance (h : Heap) (c o : Id) :
    (h.newInstance c).2.classOf? o = if o = h.instances.size then some c else h.classOf? o := by
  simp only [classOf?, Heap.newInstance, Array.getElem?_push]
  split <;> rfl

theorem fields_newInstance (h : Heap) (c o : Id) :
    (h.newInstance c).2.fields o = if o = h.instances.size then [] else h.fields o := by
  simp only [fields, Heap.newInstance, Array.getElem?_push]
  split <;> rfl

theorem Sound.newInstance (hs : h.Sound L) {c : Id} (hc : c < h.classes.size) :
    (h.newInstance c).2.Sound L := by
  have gr := grows_newInstance h c
  refine ⟨fun {f name v} hl => gr.has (hs.values hl), fun {o name v} hl => ?_,
    fun {f c} hl => (hs.functions hl).imp_right gr.runs, fun {o d} ho => ?_,
    fun {d p} hp => hs.supers hp, fun {d f name} hm => gr.methodOk (hs.methods hm)⟩
  · rw [fields_newInstance] at hl
    split at hl
    · simp at hl
    · exact gr.has (hs.fields hl)
  · rw [classOf?_newInstance] at ho
    split at ho
    · cases ho
      exact hc
    · exact hs.classes ho

theorem fields_setField (h : Heap) (o : Id) (name : String) (v : Value) (i : Id) :
    (h.setField o name v).fields i =
      if o = i ∧ i < h.instances.size then (h.fields i).insert name v else h.fields i := by
  unfold fields
  rw [getElem?_setField]
  by_cases ho : o = i
  · by_cases hi : i < h.instances.size
    · simp [ho, hi]
    · simp [ho, hi]
  · simp [ho]

theorem classOf?_setField (h : Heap) (o : Id) (name : String) (v : Value) (i : Id) :
    (h.setField o name v).classOf? i = h.classOf? i := by
  unfold classOf?
  rw [getElem?_setField]
  split
  · cases h.instances[i]? <;> rfl
  · rfl

theorem Sound.setField (hs : h.Sound L) (o : Id) (name : String) {v : Value} (hv : h.Has L v) :
    (h.setField o name v).Sound L := by
  have gr := grows_setField h o name v
  refine ⟨fun {f n w} hl => gr.has (hs.values hl), fun {i n w} hl => ?_,
    fun {f c} hl => (hs.functions hl).imp_right gr.runs, fun {i c} hc => ?_,
    fun {d p} hp => hs.supers hp, fun {d f n} hm => gr.methodOk (hs.methods hm)⟩
  · rw [fields_setField] at hl
    split at hl
    · rcases Table.eq_or_of_insert hl with h1 | rfl
      · exact gr.has (hs.fields h1)
      · exact gr.has hv
    · exact gr.has (hs.fields hl)
  · rw [classOf?_setField] at hc
    exact hs.classes hc

/-! ## Methods -/

theorem bindMethod_eq {f : Id} {c : Closure} (hc : h.functions[f]? = some c) (o : Id) :
    h.bindMethod f o = (h.functions.size,
      ((h.newFrame ⟨[("this", .object o)], some c.frame⟩).2.newFunction
        { c with frame := h.frames.size }).2) := by
  simp only [bindMethod, hc]
  rfl

theorem getElem?_bindMethod {f : Id} {c : Closure} (hc : h.functions[f]? = some c) (o : Id) :
    (h.bindMethod f o).2.functions[(h.bindMethod f o).1]? =
      some { c with frame := h.frames.size } := by
  rw [bindMethod_eq hc]
  simp [Heap.newFunction, Heap.newFrame]

/-- Binding a method to an instance of its class or of a descendant gives a function that runs. -/
theorem Sound.bindMethod (hs : h.Sound L) {c d f o : Id} (hm : h.MethodOk L c f)
    (ho : h.classOf? o = some d) (hd : h.Descends d c) :
    h.Grows (h.bindMethod f o).2 ∧ (h.bindMethod f o).2.Sound L ∧
      (h.bindMethod f o).2.Has L (.function (h.bindMethod f o).1) := by
  obtain ⟨closure, p, K, scopes, outer, cls, hc, hh, hf, hsc⟩ := hm
  have hlt : o < h.instances.size := by
    obtain ⟨i, hi, -⟩ := Option.map_eq_some_iff.1 ho
    exact (Array.getElem?_eq_some_iff.1 hi).1
  rw [bindMethod_eq hc]
  have g1 := grows_newFrame h ⟨[("this", .object o)], some closure.frame⟩
  have g2 := g1.trans (grows_newFunction _ { closure with frame := h.frames.size })
  have hthis : ((h.newFrame ⟨[("this", .object o)], some closure.frame⟩).2.vars
      h.frames.size).lookup "this" = some (.object o) := by
    rw [vars_newFrame_self]
    rfl
  have hruns : ((h.newFrame ⟨[("this", .object o)], some closure.frame⟩).2.newFunction
      { closure with frame := h.frames.size }).2.Runs L { closure with frame := h.frames.size } := by
    refine ⟨false, ⟨[("this", true)] :: scopes, some K⟩, ?_, hsc, fun _ => ⟨o, hthis, hlt⟩⟩
    exact .this (parent?_newFrame_self h _) hthis (g2.classOf? ho) (g2.descends hd) (g2.home hh)
      (hf.grows g2)
  refine ⟨g2, (hs.newFrame fun {name v} hl => ?_).newFunction hruns,
    { closure with frame := h.frames.size }, ?_, hruns⟩
  · simp only [List.lookup_cons, List.lookup_nil] at hl
    split at hl
    · cases hl
      exact hlt
    · cases hl
  · have := getElem?_bindMethod hc o
    rwa [bindMethod_eq hc] at this

/-- What a property gives exists. -/
theorem Sound.getProperty (hs : h.Sound L) {o : Id} (name : String) :
    h.Grows (h.getProperty o name).2 ∧ (h.getProperty o name).2.Sound L ∧
      ∀ v, (h.getProperty o name).1 = some v → (h.getProperty o name).2.Has L v := by
  unfold Heap.getProperty
  cases hp : h.property? o name with
  | none => exact ⟨.refl h, hs, fun v hv => by cases hv⟩
  | some property =>
    cases property with
    | field w =>
      exact ⟨.refl h, hs, fun v hv => by cases hv; exact hs.fields (field_of_property? hp)⟩
    | method f =>
      obtain ⟨d, c, hd, hdc, hm⟩ := method_of_property? hp
      obtain ⟨gr, hs', hhas⟩ := hs.bindMethod (hs.methods hm) hd hdc
      exact ⟨gr, hs', fun v hv => by cases hv; exact hhas⟩

/-! ## Classes -/

/-- What comes of making methods in the heap `h`: functions are added and nothing else, and each entry
of the table is one of the declared methods, under its own name. -/
structure MethodsMade (h : Heap) (frame : Id) (decls : List (FunDecl Stmt))
    (made : Table Id × Heap) : Prop where
  grows : h.Grows made.2
  functions : ∃ functions, made.2 = { h with functions }
  entries : ∀ name f, made.1.lookup name = some f → ∃ decl ∈ decls,
    made.2.functions[f]? = some ⟨decl, frame, decl.isInitializer⟩ ∧ decl.name.lexeme = name

theorem MethodsMade.add {frame : Id} {decls : List (FunDecl Stmt)} {made : Table Id × Heap}
    (hm : MethodsMade h frame decls made) {decl : FunDecl Stmt} (hd : decl ∈ decls) :
    MethodsMade h frame decls (addMethod frame made decl) where
  grows := hm.grows.trans (grows_newFunction made.2 _)
  functions := by
    obtain ⟨functions, he⟩ := hm.functions
    exact ⟨_, by simp only [addMethod, newFunction, he]; rfl⟩
  entries name f hl := by
    simp only [addMethod, Table.lookup_insert] at hl
    split at hl
    · rename_i hname
      cases hl
      exact ⟨decl, hd, by simp [addMethod, newFunction], hname.symm⟩
    · obtain ⟨e, he, hf, hname⟩ := hm.entries name f hl
      exact ⟨e, he, (grows_newFunction made.2 _).functions hf, hname⟩

theorem MethodsMade.addAll {frame : Id} {decls : List (FunDecl Stmt)} :
    ∀ (ds : List (FunDecl Stmt)) {made : Table Id × Heap}, (∀ d ∈ ds, d ∈ decls) →
      MethodsMade h frame decls made → MethodsMade h frame decls (ds.foldl (addMethod frame) made)
  | [], _, _, hm => hm
  | d :: ds, _, hd, hm =>
    addAll ds (fun e he => hd e (List.mem_cons_of_mem d he)) (hm.add (hd d List.mem_cons_self))

theorem newMethods_spec (h : Heap) (frame : Id) (decls : List (FunDecl Stmt)) :
    MethodsMade h frame decls (h.newMethods frame decls) :=
  .addAll decls (fun _ hd => hd) ⟨.refl h, ⟨_, rfl⟩, fun _ _ hl => by cases hl⟩

/-- The heap after a class has been made and its name bound in the frame `f`. -/
def declared (h : Heap) (f : Id) (name : String) (C : Class) : Heap :=
  (h.newClass C).2.define f name (.cls h.classes.size)

theorem grows_declared (h : Heap) (f : Id) {name : String} (hn : ¬ isWord name) (C : Class) :
    h.Grows (h.declared f name C) :=
  (grows_newClass h C).trans (grows_define _ f _ hn)

theorem getElem?_declared (h : Heap) (f : Id) (name : String) (C : Class) :
    (h.declared f name C).classes[h.classes.size]? = some C := by
  simp [declared, newClass, Heap.define]

theorem Sound.declared (hs : h.Sound L) (f : Id) {name : String} (hn : ¬ isWord name) {C : Class}
    (hp : ∀ q, C.superclass = some q → q < h.classes.size)
    (hm : ∀ n m, C.methods.lookup n = some m →
      (h.declared f name C).MethodOk L h.classes.size m) :
    (h.declared f name C).Sound L := by
  have gr := grows_declared h f hn C
  have hsize : (h.declared f name C).classes.size = h.classes.size + 1 := by
    simp [Heap.declared, newClass, Heap.define]
  have hold : ∀ {c : Id}, c ≠ h.classes.size →
      (h.declared f name C).classes[c]? = h.classes[c]? := by
    intro c hc
    simp [Heap.declared, newClass, Heap.define, Array.getElem?_push, hc]
  refine ⟨fun {g n v} hl => ?_, fun {o n v} hl => gr.has (hs.fields hl),
    fun {f c} hl => (hs.functions hl).imp_right gr.runs, fun {o c} hc => ?_, fun {c p} hc => ?_,
    fun {c m n} hl => ?_⟩
  · have hl : (((h.newClass C).2.define f name (.cls h.classes.size)).vars g).lookup n = some v := hl
    rcases eq_or_of_define hl with h1 | rfl
    · exact gr.has (hs.values h1)
    · change h.classes.size < (h.declared f name C).classes.size
      omega
  · rw [hsize]
    exact Nat.lt_succ_of_lt (hs.classes hc)
  · by_cases he : c = h.classes.size
    · simp only [superclass?, he, getElem?_declared, Option.bind_some] at hc
      exact he ▸ hp p hc
    · simp only [superclass?, hold he] at hc
      exact hs.supers hc
  · by_cases he : c = h.classes.size
    · simp only [Heap.methods, he, getElem?_declared, Option.map_some, Option.getD_some] at hl
      exact he ▸ hm n m hl
    · simp only [Heap.methods, hold he] at hl
      exact gr.methodOk (hs.methods hl)

end Heap

end Lox

import Lox.Proofs.HeapOrder
import Lox.Proofs.Pairing
import Lox.Proofs.Unshadowed

/-!
# Rosters

A roster says of each frame which names it may ever bind: all names of the scope that the frame was
made for. `Around D h f scopes` says that the frames from `f` outwards are those of the scopes whose
names are listed in `scopes`; where code that is clear in these scopes runs, only one frame can bind
the name of a reference.

Main statements: the frame that a distance leads to is the first one on the way outwards that binds
the name (`Heap.holder?_of_ancestor?`), and a name that no scope around declares is found in the
globals or not at all (`Heap.holder?_of_clear`). Every operation on heaps keeps them tidy
(`Heap.Tidy`): frames bind names of their rosters only, and functions are kept with the scopes in which
their code is clear.
-/

namespace Lox.Heap

/-- Which names each frame may bind. -/
abbrev Roster := Id → List String

/-- The frames from `f` outwards, up to the globals, may bind the names that are listed. -/
inductive Around (D : Roster) (h : Heap) : Id → List (List String) → Prop
  | globals : Around D h globals []
  | frame {f p scopes} (hp : h.parent? f = some p) (hlt : p < f) (ho : Around D h p scopes) :
      Around D h f (D f :: scopes)

/-- The function can be run: its code is clear in the scopes around it. -/
def Closes (D : Roster) (h : Heap) (f : Id) : Prop :=
  ∃ c scopes, h.functions[f]? = some c ∧ Around D h c.frame scopes ∧
    FunDecl.Clear scopes c.decl

/-- The method can be run as soon as a frame has been put around it in which `this` is bound. -/
def Waits (D : Roster) (h : Heap) (f : Id) : Prop :=
  ∃ c scopes, h.functions[f]? = some c ∧ Around D h c.frame scopes ∧
    FunDecl.Clear (["this"] :: scopes) c.decl

/-- The value, if it is a function, can be run. -/
def Clears (D : Roster) (h : Heap) : Value → Prop
  | .function f => Closes D h f
  | _ => True

/-- Frames keep to the roster, and so does whatever is run in them. -/
structure Tidy (D : Roster) (h : Heap) : Prop where
  root : ∃ frame, h.frames[globals]? = some frame ∧ frame.parent = none
  names : ∀ {f : Id} {name : String}, (h.vars f).binds name = true → f = globals ∨ name ∈ D f
  values : ∀ {f : Id} {name : String} {v : Value}, (h.vars f).lookup name = some v → Clears D h v
  fields : ∀ {o : Id} {name : String} {v : Value}, (h.fields o).lookup name = some v →
    Clears D h v
  methods : ∀ {c f : Id} {name : String}, (h.methods c).lookup name = some f → Waits D h f

/-- A later heap, with a roster that has entries for the new frames. -/
structure Later (D : Roster) (h : Heap) (D' : Roster) (h' : Heap) : Prop where
  roster : ∀ f < h.frames.size, D' f = D f
  persists : h.Persists h'

variable {D D' D₁ : Roster} {h h' h₁ : Heap} {f g : Id} {scopes : List (List String)} {name : String}
  {k : Nat}

/-! ## Later heaps -/

namespace Later

theorem of_persists (hp : h.Persists h') : Later D h D h' := ⟨fun _ _ => rfl, hp⟩

theorem refl (D : Roster) (h : Heap) : Later D h D h := of_persists (.refl h)

theorem trans (a : Later D h D₁ h₁) (b : Later D₁ h₁ D' h') : Later D h D' h' :=
  ⟨fun f hf => (b.roster f (Nat.lt_of_lt_of_le hf a.persists.frames_size)).trans (a.roster f hf),
    a.persists.trans b.persists⟩

theorem around (hl : Later D h D' h') (ha : Around D h f scopes) : Around D' h' f scopes := by
  induction ha with
  | globals => exact .globals
  | @frame f p scopes hp hlt _ ih =>
    obtain ⟨frame, hf, hparent⟩ := parent?_eq_some hp
    obtain ⟨frame', hf', hparent', -⟩ := hl.persists.frames hf
    have hp' : h'.parent? f = some p := by rw [parent?_of_getElem? hf', hparent', hparent]
    rw [← hl.roster f (Array.getElem?_eq_some_iff.1 hf).1]
    exact .frame hp' hlt ih

theorem closes (hl : Later D h D' h') (hc : Closes D h f) : Closes D' h' f := by
  obtain ⟨c, scopes, hf, ha, hd⟩ := hc
  exact ⟨c, scopes, hl.persists.functions hf, hl.around ha, hd⟩

theorem waits (hl : Later D h D' h') (hw : Waits D h f) : Waits D' h' f := by
  obtain ⟨c, scopes, hf, ha, hd⟩ := hw
  exact ⟨c, scopes, hl.persists.functions hf, hl.around ha, hd⟩

theorem clears (hl : Later D h D' h') {v : Value} (hv : Clears D h v) : Clears D' h' v := by
  cases v with
  | function f => exact hl.closes hv
  | _ => trivial

end Later

theorem clears_of_isPlain {v : Value} (hv : v.isPlain = true) : Clears D h v := by
  cases v with
  | function _ => cases hv
  | _ => trivial

/-! ## Looking names up -/

/-- The first result along a list comes from the first place that gives one. -/
theorem findSome?_eq_bind_find? {α : Type} (F : Id → Option α) (l : List Id) :
    l.findSome? F = (l.find? fun i => (F i).isSome).bind F := by
  induction l with
  | nil => rfl
  | cons i l ih =>
    rw [List.findSome?_cons, List.find?_cons]
    cases hi : F i with
    | some a => simp [hi]
    | none => simpa [hi] using ih

/-- The value of a name is the one that the nearest frame binds it to. -/
theorem get?_eq (h : Heap) (f : Id) (name : String) :
    h.get? f name = (h.holder? f name).bind fun g => (h.vars g).lookup name :=
  findSome?_eq_bind_find? _ _

/-- **One frame only.** If no scope inside the one that a distance leads to declares the name, the
frame there is the nearest one that binds it. -/
theorem holder?_of_ancestor? (ht : Tidy D h) (ha : Around D h f scopes)
    (hk : ∀ names ∈ scopes.take k, name ∉ names) (hg : h.ancestor? f k = some g)
    (hb : (h.vars g).binds name = true) : h.holder? f name = some g := by
  suffices hfind : ∀ n, f < n → (h.chainWithin n f).find? (fun g => (h.vars g).binds name) = some g
    from hfind (f + 1) (Nat.lt_succ_self f)
  induction ha generalizing k with
  | globals =>
    intro n hn
    obtain ⟨n, rfl⟩ := Nat.exists_eq_succ_of_ne_zero (Nat.ne_of_gt hn)
    obtain ⟨frame, hroot, hnone⟩ := ht.root
    cases k with
    | zero =>
      cases hg
      simp only [chainWithin, List.find?_cons, hb]
    | succ k =>
      have hparent := parent?_of_getElem? hroot
      rw [hnone] at hparent
      simp [ancestor?, hparent] at hg
  | @frame f p scopes hp hlt _ ih =>
    intro n hn
    obtain ⟨n, rfl⟩ := Nat.exists_eq_succ_of_ne_zero (Nat.ne_of_gt (Nat.zero_lt_of_lt hn))
    cases k with
    | zero =>
      cases hg
      simp only [chainWithin, List.find?_cons, hb]
    | succ k =>
      rw [List.take_succ_cons, List.forall_mem_cons] at hk
      have hfree : (h.vars f).binds name = false := by
        by_contra hbf
        rcases ht.names (by simpa using hbf) with rfl | hm
        · exact Nat.not_lt_zero p hlt
        · exact hk.1 hm
      rw [ancestor?_succ hp] at hg
      simp only [chainWithin, hp, List.find?_cons, hfree]
      exact ih hk.2 hg n (Nat.lt_of_lt_of_le hlt (Nat.le_of_lt_succ hn))

/-- A name that no scope around declares is bound in the globals or nowhere. -/
theorem holder?_of_clear (ht : Tidy D h) (ha : Around D h f scopes)
    (hn : ∀ names ∈ scopes, name ∉ names) : h.holder? f name = h.holder? globals name := by
  suffices hfind : ∀ n, f < n → (h.chainWithin n f).find? (fun g => (h.vars g).binds name) =
      h.holder? globals name from hfind (f + 1) (Nat.lt_succ_self f)
  induction ha with
  | globals =>
    intro n hlt
    obtain ⟨n, rfl⟩ := Nat.exists_eq_succ_of_ne_zero (Nat.ne_of_gt hlt)
    obtain ⟨frame, hroot, hnone⟩ := ht.root
    rw [chainWithin, parent?_of_getElem? hroot, hnone, holder?_globals, List.find?_singleton]
  | @frame f p scopes hp hlt _ ih =>
    intro n hfn
    obtain ⟨n, rfl⟩ := Nat.exists_eq_succ_of_ne_zero (Nat.ne_of_gt (Nat.zero_lt_of_lt hfn))
    rw [List.forall_mem_cons] at hn
    have hfree : (h.vars f).binds name = false := by
      by_contra hbf
      rcases ht.names (by simpa using hbf) with rfl | hm
      · exact Nat.not_lt_zero p hlt
      · exact hn.1 hm
    simp only [chainWithin, hp, List.find?_cons, hfree]
    exact ih hn.2 n (Nat.lt_of_lt_of_le hlt (Nat.le_of_lt_succ hfn))

section
variable {hops : Int}

/-- What a distance finds, a search finds as well. -/
theorem get?_of_getAt (ht : Tidy D h) (ha : Around D h f scopes)
    (hk : ∀ names ∈ scopes.take hops.toNat, name ∉ names) {v : Value}
    (hv : h.getAt f hops name = .ok v) : h.get? f name = some v ∧ Clears D h v := by
  unfold getAt at hv
  cases hg : h.ancestor? f hops.toNat with
  | none => simp [hg] at hv
  | some g =>
    rw [hg] at hv
    cases hl : (h.vars g).lookup name with
    | none => simp [hl] at hv
    | some w =>
      simp only [hl, Except.ok.injEq] at hv
      subst hv
      have hholder := holder?_of_ancestor? ht ha hk hg (Table.binds_iff.2 ⟨w, hl⟩)
      exact ⟨by rw [get?_eq, hholder, Option.bind_some, hl], ht.values hl⟩

theorem holder?_of_slotAt (ht : Tidy D h) (ha : Around D h f scopes)
    (hk : ∀ names ∈ scopes.take hops.toNat, name ∉ names) (hg : h.slotAt f hops name = .ok g) :
    h.holder? f name = some g := by
  unfold slotAt at hg
  cases hp : h.ancestor? f hops.toNat with
  | none => simp [hp] at hg
  | some p =>
    rw [hp] at hg
    by_cases hb : (h.vars p).binds name = true
    · simp only [hb, if_true, Except.ok.injEq] at hg
      subst hg
      exact holder?_of_ancestor? ht ha hk hp hb
    · simp [hb] at hg

end

/-- The frame that holds a name may bind it. -/
theorem Tidy.holder (ht : Tidy D h) (hg : h.holder? f name = some g) :
    g = globals ∨ name ∈ D g := by
  unfold holder? at hg
  have hb := List.find?_some hg
  exact ht.names hb

/-- Where a name is declared, the frame may bind it. -/
theorem Around.declares (ha : Around D h f scopes) {name : Token} (hn : Declares scopes name) :
    f = Lox.globals ∨ name.lexeme ∈ D f := by
  cases ha with
  | globals => exact .inl rfl
  | frame => exact .inr (hn _ rfl)

/-! ## Every operation keeps a heap tidy -/

/-- A later heap is tidy if what is new in it keeps to the roster. -/
theorem Tidy.of_later (ht : Tidy D h) (hl : Later D h D' h')
    (hn : ∀ {f name}, (h'.vars f).binds name = true →
      (h.vars f).binds name = true ∨ f = globals ∨ name ∈ D' f)
    (hv : ∀ {f name v}, (h'.vars f).lookup name = some v →
      (h.vars f).lookup name = some v ∨ Clears D' h' v)
    (hf : ∀ {o name v}, (h'.fields o).lookup name = some v →
      (h.fields o).lookup name = some v ∨ Clears D' h' v)
    (hm : ∀ {c f name}, (h'.methods c).lookup name = some f →
      (h.methods c).lookup name = some f ∨ Waits D' h' f) : Tidy D' h' where
  root := by
    obtain ⟨frame, hroot, hnone⟩ := ht.root
    obtain ⟨frame', hroot', hparent, -⟩ := hl.persists.frames hroot
    exact ⟨frame', hroot', hparent.trans hnone⟩
  names {f name} hb := by
    rcases hn hb with hold | hnew
    · rw [hl.roster f (lt_of_binds hold)]
      exact ht.names hold
    · exact hnew
  values hw := (hv hw).elim (fun hold => hl.clears (ht.values hold)) id
  fields hw := (hf hw).elim (fun hold => hl.clears (ht.fields hold)) id
  methods hw := (hm hw).elim (fun hold => hl.waits (ht.methods hold)) id

/-- The roster with the names of a frame that is to be made. -/
def Roster.add (D : Roster) (h : Heap) (names : List String) : Roster :=
  Function.update D h.frames.size names

theorem later_newFrame (D : Roster) (h : Heap) (names : List String) (frame : Frame) :
    Later D h (D.add h names) (h.newFrame frame).2 :=
  ⟨fun f hf => by rw [Roster.add, Function.update_of_ne (Nat.ne_of_lt hf)],
    persists_apply (.frame frame) h⟩

theorem Tidy.newFrame (ht : Tidy D h) {names : List String} {frame : Frame}
    (hn : ∀ x, frame.vars.binds x = true → x ∈ names)
    (hv : ∀ {x v}, frame.vars.lookup x = some v → Clears D h v) :
    Tidy (D.add h names) (h.newFrame frame).2 := by
  have hl := later_newFrame D h names frame
  refine ht.of_later hl (fun {f name} hb => ?_) (fun {f name v} hw => ?_) .inl .inl
  · rw [vars_newFrame] at hb
    split at hb
    · rename_i he
      refine .inr (.inr ?_)
      rw [he, Roster.add, Function.update_self]
      exact hn name hb
    · exact .inl hb
  · rw [vars_newFrame] at hw
    split at hw
    · exact .inr (hl.clears (hv hw))
    · exact .inl hw

/-- The frame of `this` or of `super` binds its word only. -/
theorem Tidy.newFrame_singleton (ht : Tidy D h) {x : String} {v : Value} (hv : Clears D h v)
    (parent : Option Id) : Tidy (D.add h [x]) (h.newFrame ⟨[(x, v)], parent⟩).2 := by
  refine ht.newFrame (fun y hb => ?_) fun {y w} hl => ?_
  · by_contra hy
    simp [Table.binds, List.lookup_cons, show (y == x) = false by simpa using hy] at hb
  · rw [List.lookup_cons] at hl
    split at hl <;> cases hl
    exact hv

/-- The new frame is in the place of its scope. -/
theorem Around.newFrame (ha : Around D h f scopes) (hlt : f < h.frames.size) {names : List String}
    {frame : Frame} (hp : frame.parent = some f) :
    Around (D.add h names) (h.newFrame frame).2 h.frames.size (names :: scopes) := by
  have hparent : (h.newFrame frame).2.parent? h.frames.size = some f := by
    rw [parent?_newFrame_self, hp]
  have hnew := Around.frame hparent hlt ((later_newFrame D h names frame).around ha)
  rwa [Roster.add, Function.update_self] at hnew

/-- The frames around are there. -/
theorem Around.lt (ha : Around D h f scopes) (ht : Tidy D h) : f < h.frames.size := by
  cases ha with
  | globals =>
    obtain ⟨frame, hroot, -⟩ := ht.root
    exact (Array.getElem?_eq_some_iff.1 hroot).1
  | frame hp =>
    obtain ⟨frame, hf, -⟩ := parent?_eq_some hp
    exact (Array.getElem?_eq_some_iff.1 hf).1

theorem later_edit (D : Roster) (h : Heap) (e : Edit) : Later D h D (e.apply h) :=
  .of_persists (persists_apply e h)

theorem Tidy.newFunction (ht : Tidy D h) (c : Closure) : Tidy D (h.newFunction c).2 :=
  ht.of_later (later_edit D h (.function c)) .inl .inl .inl .inl

theorem getElem?_newFunction (h : Heap) (c : Closure) :
    (h.newFunction c).2.functions[h.functions.size]? = some c := by
  simp [Heap.newFunction]

theorem Tidy.newClass (ht : Tidy D h) {C : Class}
    (hm : ∀ {name f}, C.methods.lookup name = some f → Waits D h f) :
    Tidy D (h.newClass C).2 := by
  have hl := later_edit D h (.cls C)
  refine ht.of_later hl .inl .inl .inl fun {c f name} hw => ?_
  rw [methods_newClass] at hw
  split at hw
  · exact .inr (hl.waits (hm hw))
  · exact .inl hw

theorem Tidy.newInstance (ht : Tidy D h) (c : Id) : Tidy D (h.newInstance c).2 := by
  refine ht.of_later (later_edit D h (.object c)) .inl .inl (fun {o name v} hw => ?_) .inl
  rw [fields_newInstance] at hw
  split at hw
  · cases hw
  · exact .inl hw

theorem Tidy.define (ht : Tidy D h) (hn : f = globals ∨ name ∈ D f) {v : Value}
    (hv : Clears D h v) : Tidy D (h.define f name v) := by
  have hl := later_edit D h (.bind f name v)
  refine ht.of_later hl (fun {g x} hb => ?_) (fun {g x w} hw => ?_) .inl .inl
  · rw [vars_define] at hb
    split at hb
    · rename_i he
      obtain ⟨w, hw⟩ := Table.binds_iff.1 hb
      rw [Table.lookup_insert] at hw
      split at hw
      · rename_i hx
        rw [hx, ← he.1]
        exact .inr hn
      · exact .inl (Table.binds_iff.2 ⟨w, hw⟩)
    · exact .inl hb
  · rcases eq_or_of_define hw with h1 | rfl
    · exact .inl h1
    · exact .inr (hl.clears hv)

theorem Tidy.setField (ht : Tidy D h) (o : Id) (name : String) {v : Value} (hv : Clears D h v) :
    Tidy D (h.setField o name v) := by
  have hl := later_edit D h (.field o name v)
  refine ht.of_later hl .inl .inl (fun {p x w} hw => ?_) .inl
  rw [fields_setField] at hw
  split at hw
  · rcases Table.eq_or_of_insert hw with h1 | rfl
    · exact .inl h1
    · exact .inr (hl.clears hv)
  · exact .inl hw

/-! ## Methods -/

/-- Binding a method puts the frame of `this` around it. -/
theorem Tidy.bindMethod (ht : Tidy D h) (hw : Waits D h f) (o : Id) :
    ∃ D', Tidy D' (h.bindMethod f o).2 ∧ Later D h D' (h.bindMethod f o).2 ∧
      Closes D' (h.bindMethod f o).2 (h.bindMethod f o).1 := by
  obtain ⟨c, scopes, hc, ha, hd⟩ := hw
  have hclosure := getElem?_bindMethod hc o
  rw [bindMethod_eq hc] at hclosure ⊢
  have hframe := ht.newFrame_singleton (x := "this") (v := .object o) trivial (some c.frame)
  have hlater := (later_newFrame D h ["this"] ⟨[("this", .object o)], some c.frame⟩).trans
    (later_edit _ _ (.function { c with frame := h.frames.size }))
  refine ⟨_, hframe.newFunction _, hlater, _, _, hclosure, ?_, hd⟩
  exact (later_edit _ _ (.function _)).around (ha.newFrame (ha.lt ht) rfl)

/-- What a property gives can be run. -/
theorem Tidy.getProperty (ht : Tidy D h) (o : Id) (name : String) :
    ∃ D', Tidy D' (h.getProperty o name).2 ∧ Later D h D' (h.getProperty o name).2 ∧
      ∀ v, (h.getProperty o name).1 = some v → Clears D' (h.getProperty o name).2 v := by
  unfold Heap.getProperty
  cases hp : h.property? o name with
  | none => exact ⟨D, ht, .refl D h, nofun⟩
  | some property =>
    cases property with
    | field v =>
      refine ⟨D, ht, .refl D h, fun w hw => ?_⟩
      cases hw
      exact ht.fields (field_of_property? hp)
    | method f =>
      obtain ⟨_, _, -, -, hm⟩ := method_of_property? hp
      obtain ⟨D', ht', hl', hc'⟩ := ht.bindMethod (ht.methods hm) o
      refine ⟨D', ht', hl', fun w hw => ?_⟩
      cases hw
      exact hc'

/-- The methods of a class wait for their receivers. -/
theorem Tidy.newMethods (ht : Tidy D h) (ha : Around D h f scopes) {ds : List (FunDecl Stmt)}
    (hd : FunDecl.ClearAll (["this"] :: scopes) ds) :
    Tidy D (h.newMethods f ds).2 ∧ Later D h D (h.newMethods f ds).2 ∧
      ∀ {name g}, (h.newMethods f ds).1.lookup name = some g → Waits D (h.newMethods f ds).2 g := by
  obtain ⟨hg, ⟨functions, he⟩, htable⟩ := newMethods_spec h f ds
  have hl : Later D h D (h.newMethods f ds).2 := .of_persists hg.persists
  refine ⟨ht.of_later hl ?_ ?_ ?_ ?_, hl, fun {name g} hw => ?_⟩
  · rw [he]
    exact .inl
  · rw [he]
    exact .inl
  · rw [he]
    exact .inl
  · rw [he]
    exact .inl
  · obtain ⟨decl, hm, hc, -⟩ := htable name g hw
    exact ⟨_, scopes, hc, hl.around ha, hd.mem hm⟩

end Lox.Heap

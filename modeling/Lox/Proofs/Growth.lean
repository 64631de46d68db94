import Lox.Heap.Object

/-!
# How a heap grows

`Heap.Grows h h'`: `h'` is a later state of `h`. Places stay taken; a frame keeps its parent, its
bound names and the values of `this` and `super`; functions and classes stay as they are; an
instance keeps its class and its field names. Every operation of a run is such a step
(`grows_newFrame`, `grows_define`, …), and what the run relies on survives it: parents
(`Grows.parent?`), bound names (`Grows.binds`) and the line of superclasses (`Grows.descends`).
-/

namespace Lox

namespace Table

variable {α : Type}

theorem lookup_insert (t : Table α) (name other : String) (a : α) :
    (t.insert name a).lookup other = if other = name then some a else t.lookup other := by
  split
  · rename_i h
    rw [h, lookup_insert_self]
  · rename_i h
    exact lookup_insert_of_ne t a h

/-- What a table binds after an insertion was bound before or is the new entry. -/
theorem eq_or_of_insert {t : Table α} {name other : String} {a b : α}
    (hl : (t.insert name a).lookup other = some b) : t.lookup other = some b ∨ b = a := by
  rw [lookup_insert] at hl
  split at hl
  · cases hl
    exact .inr rfl
  · exact .inl hl

theorem binds_iff {t : Table α} {name : String} : t.binds name = true ↔ ∃ a, t.lookup name = some a :=
  Option.isSome_iff_exists

theorem binds_insert {t : Table α} {name other : String} {a : α} (h : t.binds other = true) :
    (t.insert name a).binds other = true := by
  unfold binds at h ⊢
  rw [lookup_insert]
  split
  · rfl
  · exact h

theorem binds_insert_self (t : Table α) (name : String) (a : α) :
    (t.insert name a).binds name = true := by
  unfold binds
  rw [lookup_insert_self]
  rfl

/-- What a table binds after a run of insertions: one of the entries, or what it bound before. -/
theorem lookup_insertAll : ∀ {entries : List (String × α)} {t : Table α} {name : String} {a : α},
    (t.insertAll entries).lookup name = some a →
      (name, a) ∈ entries ∨ t.lookup name = some a ∧ ∀ e ∈ entries, e.1 ≠ name
  | [], _, _, _, h => .inr ⟨h, by simp⟩
  | (n, b) :: entries, t, name, a, h => by
    have h' : ((t.insert n b).insertAll entries).lookup name = some a := h
    rcases lookup_insertAll h' with hm | ⟨hl, hne⟩
    · exact .inl (List.mem_cons_of_mem _ hm)
    · rw [lookup_insert] at hl
      split at hl
      · rename_i he
        cases hl
        exact .inl (by rw [he]; exact List.mem_cons_self)
      · rename_i he
        refine .inr ⟨hl, fun e hm => ?_⟩
        rcases List.mem_cons.1 hm with rfl | hm
        · exact Ne.symm he
        · exact hne e hm

theorem binds_insertAll_of_binds {name : String} : ∀ (entries : List (String × α)) {t : Table α},
    t.binds name = true → (t.insertAll entries).binds name = true
  | [], _, h => h
  | (n, b) :: entries, t, h => by
    change ((t.insert n b).insertAll entries).binds name = true
    exact binds_insertAll_of_binds entries (binds_insert h)

/-- Every name of the entries is bound after them. -/
theorem binds_insertAll {name : String} {a : α} : ∀ {entries : List (String × α)} {t : Table α},
    (name, a) ∈ entries → (t.insertAll entries).binds name = true
  | (n, b) :: entries, t, h => by
    change ((t.insert n b).insertAll entries).binds name = true
    rcases List.mem_cons.1 h with he | h
    · cases he
      exact binds_insertAll_of_binds entries (binds_insert_self t name a)
    · exact binds_insertAll h

end Table

/-! ## The operations on frames and functions -/

namespace Heap

variable {h h' : Heap}

theorem vars_of_getElem? {f : Id} {frame : Frame} (hf : h.frames[f]? = some frame) :
    h.vars f = frame.vars := by
  simp [vars, hf]

theorem parent?_of_getElem? {f : Id} {frame : Frame} (hf : h.frames[f]? = some frame) :
    h.parent? f = frame.parent := by
  simp [parent?, hf]

theorem parent?_eq_some {f p : Id} (hp : h.parent? f = some p) :
    ∃ frame, h.frames[f]? = some frame ∧ frame.parent = some p := by
  obtain ⟨frame, hf, hp⟩ := Option.bind_eq_some_iff.1 hp
  exact ⟨frame, hf, hp⟩

theorem lookup_vars_eq_some {f : Id} {name : String} {v : Value}
    (hv : (h.vars f).lookup name = some v) :
    ∃ frame, h.frames[f]? = some frame ∧ frame.vars.lookup name = some v := by
  unfold vars at hv
  cases hf : h.frames[f]? with
  | none => simp [hf] at hv
  | some frame => exact ⟨frame, rfl, by simpa [hf] using hv⟩

theorem getElem?_newFrame (h : Heap) (frame : Frame) (i : Id) :
    (h.newFrame frame).2.frames[i]? = if i = h.frames.size then some frame else h.frames[i]? :=
  Array.getElem?_push

theorem getElem?_define (h : Heap) (f : Id) (name : String) (v : Value) (i : Id) :
    (h.define f name v).frames[i]? =
      if f = i then h.frames[i]?.map fun frame => { frame with vars := frame.vars.insert name v }
      else h.frames[i]? :=
  Array.getElem?_modify

theorem parent?_define (h : Heap) (f : Id) (name : String) (v : Value) (i : Id) :
    (h.define f name v).parent? i = h.parent? i := by
  unfold parent?
  rw [getElem?_define]
  split
  · cases h.frames[i]? <;> rfl
  · rfl

theorem vars_define (h : Heap) (f : Id) (name : String) (v : Value) (i : Id) :
    (h.define f name v).vars i =
      if f = i ∧ i < h.frames.size then (h.vars i).insert name v else h.vars i := by
  unfold vars
  rw [getElem?_define]
  by_cases hf : f = i
  · by_cases hi : i < h.frames.size
    · simp [hf, hi]
    · simp [hf, hi]
  · simp [hf]

/-- What a frame holds after a name has been bound was there before or is the new value. -/
theorem eq_or_of_define {f g : Id} {name other : String} {v w : Value}
    (hl : ((h.define f name v).vars g).lookup other = some w) :
    (h.vars g).lookup other = some w ∨ w = v := by
  rw [vars_define] at hl
  split at hl
  · exact Table.eq_or_of_insert hl
  · exact .inl hl

theorem eq_or_of_newFunction {c c' : Closure} {f : Id}
    (hl : (h.newFunction c).2.functions[f]? = some c') :
    h.functions[f]? = some c' ∨ c' = c := by
  simp only [newFunction, Array.getElem?_push] at hl
  split at hl
  · cases hl
    exact .inr rfl
  · exact .inl hl

/-! ## Growth -/

/-- The two words that only a class binds. -/
def isWord (name : String) : Prop := name = "this" ∨ name = "super"

end Heap

/-- A frame later in a run. -/
structure Frame.Grows (a b : Frame) : Prop where
  parent : b.parent = a.parent
  binds : ∀ name, a.vars.binds name = true → b.vars.binds name = true
  word : ∀ name, Heap.isWord name → b.vars.lookup name = a.vars.lookup name

theorem Frame.Grows.refl (a : Frame) : a.Grows a := ⟨rfl, fun _ h => h, fun _ _ => rfl⟩

theorem Frame.Grows.trans {a b c : Frame} (h1 : a.Grows b) (h2 : b.Grows c) : a.Grows c :=
  ⟨h2.parent.trans h1.parent, fun n h => h2.binds n (h1.binds n h),
    fun n h => (h2.word n h).trans (h1.word n h)⟩

/-- An instance later in a run. -/
structure Instance.Grows (a b : Instance) : Prop where
  cls : b.cls = a.cls
  fields : ∀ name, a.fields.binds name = true → b.fields.binds name = true

namespace Heap

/-- A heap later in a run (module doc). -/
structure Grows (h h' : Heap) : Prop where
  frames : ∀ {i : Id} {f : Frame}, h.frames[i]? = some f →
    ∃ f', h'.frames[i]? = some f' ∧ f.Grows f'
  functions : ∀ {i : Id} {c : Closure}, h.functions[i]? = some c → h'.functions[i]? = some c
  classes : ∀ {i : Id} {c : Class}, h.classes[i]? = some c → h'.classes[i]? = some c
  instances : ∀ {i : Id} {o : Instance}, h.instances[i]? = some o →
    ∃ o', h'.instances[i]? = some o' ∧ o.Grows o'

namespace Grows

theorem refl (h : Heap) : h.Grows h where
  frames hf := ⟨_, hf, .refl _⟩
  functions hc := hc
  classes hc := hc
  instances ho := ⟨_, ho, rfl, fun _ hb => hb⟩

theorem trans {h₁ h₂ h₃ : Heap} (a : h₁.Grows h₂) (b : h₂.Grows h₃) : h₁.Grows h₃ where
  frames hf := by
    obtain ⟨_, h2, g2⟩ := a.frames hf
    obtain ⟨f', h3, g3⟩ := b.frames h2
    exact ⟨f', h3, g2.trans g3⟩
  functions hc := b.functions (a.functions hc)
  classes hc := b.classes (a.classes hc)
  instances ho := by
    obtain ⟨_, h2, g2⟩ := a.instances ho
    obtain ⟨o', h3, g3⟩ := b.instances h2
    exact ⟨o', h3, g3.cls.trans g2.cls, fun n hb => g3.fields n (g2.fields n hb)⟩

variable {h h' : Heap} (g : h.Grows h')
include g

theorem parent? {f p : Id} (hp : h.parent? f = some p) : h'.parent? f = some p := by
  obtain ⟨frame, hf, hp⟩ := parent?_eq_some hp
  obtain ⟨frame', hf', hg⟩ := g.frames hf
  rw [parent?_of_getElem? hf', hg.parent, hp]

theorem binds {f : Id} {name : String} (hb : (h.vars f).binds name = true) :
    (h'.vars f).binds name = true := by
  obtain ⟨v, hv⟩ := Table.binds_iff.1 hb
  obtain ⟨frame, hf, hv⟩ := lookup_vars_eq_some hv
  obtain ⟨frame', hf', hg⟩ := g.frames hf
  rw [vars_of_getElem? hf']
  exact hg.binds name (Table.binds_iff.2 ⟨v, hv⟩)

theorem word {f : Id} {name : String} {v : Value} (hw : isWord name)
    (hv : (h.vars f).lookup name = some v) : (h'.vars f).lookup name = some v := by
  obtain ⟨frame, hf, hv⟩ := lookup_vars_eq_some hv
  obtain ⟨frame', hf', hg⟩ := g.frames hf
  rw [vars_of_getElem? hf', hg.word name hw, hv]

theorem classOf? {o c : Id} (hc : h.classOf? o = some c) : h'.classOf? o = some c := by
  obtain ⟨i, hi, hc⟩ := Option.map_eq_some_iff.1 hc
  obtain ⟨i', hi', hg⟩ := g.instances hi
  simp [Heap.classOf?, hi', hg.cls, hc]

theorem superclass? {c p : Id} (hp : h.superclass? c = some p) : h'.superclass? c = some p := by
  obtain ⟨C, hC, hp⟩ := Option.bind_eq_some_iff.1 hp
  simp [Heap.superclass?, g.classes hC, hp]

theorem classes_size : h.classes.size ≤ h'.classes.size := by
  cases hs : h.classes.size with
  | zero => exact Nat.zero_le _
  | succ n =>
    obtain ⟨C, hC⟩ : ∃ C, h.classes[n]? = some C := ⟨_, Array.getElem?_eq_getElem (by omega)⟩
    exact (Array.getElem?_eq_some_iff.1 (g.classes hC)).1

end Grows

/-! ## Every operation is growth -/

theorem grows_newFrame (h : Heap) (frame : Frame) : h.Grows (h.newFrame frame).2 where
  frames {i f} hf := by
    refine ⟨f, ?_, .refl f⟩
    rw [getElem?_newFrame, if_neg (Nat.ne_of_lt (Array.getElem?_eq_some_iff.1 hf).1), hf]
  functions hc := hc
  classes hc := hc
  instances ho := ⟨_, ho, rfl, fun _ hb => hb⟩

theorem grows_newFunction (h : Heap) (c : Closure) : h.Grows (h.newFunction c).2 where
  frames hf := ⟨_, hf, .refl _⟩
  functions {i c'} hc := by
    have hi := (Array.getElem?_eq_some_iff.1 hc).1
    simp only [newFunction, Array.getElem?_push, if_neg (Nat.ne_of_lt hi), hc]
  classes hc := hc
  instances ho := ⟨_, ho, rfl, fun _ hb => hb⟩

theorem grows_newClass (h : Heap) (c : Class) : h.Grows (h.newClass c).2 where
  frames hf := ⟨_, hf, .refl _⟩
  functions hc := hc
  classes {i c'} hc := by
    have hi := (Array.getElem?_eq_some_iff.1 hc).1
    simp only [newClass, Array.getElem?_push, if_neg (Nat.ne_of_lt hi), hc]
  instances ho := ⟨_, ho, rfl, fun _ hb => hb⟩

theorem grows_newInstance (h : Heap) (c : Id) : h.Grows (h.newInstance c).2 where
  frames hf := ⟨_, hf, .refl _⟩
  functions hc := hc
  classes hc := hc
  instances {i o} ho := by
    have hi := (Array.getElem?_eq_some_iff.1 ho).1
    refine ⟨o, ?_, rfl, fun _ hb => hb⟩
    simp only [newInstance, Array.getElem?_push, if_neg (Nat.ne_of_lt hi), ho]

/-- A name other than `this` and `super` may be bound in any frame. -/
theorem grows_define (h : Heap) (f : Id) {name : String} (v : Value) (hn : ¬ isWord name) :
    h.Grows (h.define f name v) where
  frames {i frame} hf := by
    rw [getElem?_define]
    split
    · refine ⟨{ frame with vars := frame.vars.insert name v }, by rw [hf]; rfl, rfl,
        fun n hb => Table.binds_insert hb, fun n hw => ?_⟩
      have hne : n ≠ name := fun he => hn (he ▸ hw)
      exact Table.lookup_insert_of_ne _ _ hne
    · exact ⟨frame, hf, .refl frame⟩
  functions hc := hc
  classes hc := hc
  instances ho := ⟨_, ho, rfl, fun _ hb => hb⟩

theorem getElem?_setField (h : Heap) (o : Id) (name : String) (v : Value) (i : Id) :
    (h.setField o name v).instances[i]? =
      if o = i then h.instances[i]?.map fun x => { x with fields := x.fields.insert name v }
      else h.instances[i]? :=
  Array.getElem?_modify

theorem grows_setField (h : Heap) (o : Id) (name : String) (v : Value) :
    h.Grows (h.setField o name v) where
  frames hf := ⟨_, hf, .refl _⟩
  functions hc := hc
  classes hc := hc
  instances {i x} hx := by
    rw [getElem?_setField]
    split
    · exact ⟨{ x with fields := x.fields.insert name v }, by rw [hx]; rfl, rfl,
        fun n hb => Table.binds_insert hb⟩
    · exact ⟨x, hx, rfl, fun _ hb => hb⟩

/-! ## Methods, one after the other -/

/-- Makes one more method and its entry in the table. -/
def addMethod (frame : Id) (made : Table Id × Heap) (decl : FunDecl Stmt) : Table Id × Heap :=
  let new := made.2.newFunction ⟨decl, frame, decl.isInitializer⟩
  (made.1.insert decl.name.lexeme new.1, new.2)

theorem newMethods_eq (h : Heap) (frame : Id) (decls : List (FunDecl Stmt)) :
    h.newMethods frame decls = decls.foldl (addMethod frame) ([], h) := rfl

end Heap

end Lox

import Mathlib.Logic.Relation
import Lox.Proofs.Growth

/-!
# Edits of the heap

A run changes the heap by single edits: it adds a frame, a function, a class or an instance, or it
binds one name in a frame or one field of an instance (`Heap.Edit`). Whatever is edited, nothing is
taken away and nothing that was made is made otherwise (`Heap.Persists`, `persists_of_edited`).
-/

namespace Lox.Heap

/-- A single change of a heap. -/
inductive Edit where
  | frame (f : Frame)
  | function (c : Closure)
  | cls (c : Class)
  /-- A new instance of a class. -/
  | object (c : Id)
  | bind (f : Id) (name : String) (v : Value)
  | field (o : Id) (name : String) (v : Value)

/-- The heap after an edit. -/
def Edit.apply : Edit → Heap → Heap
  | .frame f, h => (h.newFrame f).2
  | .function c, h => (h.newFunction c).2
  | .cls c, h => (h.newClass c).2
  | .object c, h => (h.newInstance c).2
  | .bind f name v, h => h.define f name v
  | .field o name v, h => h.setField o name v

/-- The heap `h'` comes from `h` by edits, each of which `P` allows in the heap it is made in. -/
def Edited (P : Heap → Edit → Prop) : Heap → Heap → Prop :=
  Relation.ReflTransGen fun h h' => ∃ e : Edit, P h e ∧ h' = e.apply h

theorem Edited.edit {P : Heap → Edit → Prop} {h h' : Heap} (hh : Edited P h h') {e : Edit}
    (he : P h' e) : Edited P h (e.apply h') :=
  Relation.ReflTransGen.tail hh ⟨e, he, rfl⟩

/-! ## What stays -/

/-- What was in `h` is in `h'`: a frame with its parent and the names it binds, functions and
classes as they were made, an instance with its class and its field names. -/
structure Persists (h h' : Heap) : Prop where
  frames : ∀ {i : Id} {f : Frame}, h.frames[i]? = some f → ∃ f', h'.frames[i]? = some f' ∧
    f'.parent = f.parent ∧ ∀ name, f.vars.binds name = true → f'.vars.binds name = true
  functions : ∀ {i : Id} {c : Closure}, h.functions[i]? = some c → h'.functions[i]? = some c
  classes : ∀ {i : Id} {c : Class}, h.classes[i]? = some c → h'.classes[i]? = some c
  instances : ∀ {i : Id} {o : Instance}, h.instances[i]? = some o →
    ∃ o', h'.instances[i]? = some o' ∧ o.Grows o'

theorem Grows.persists {h h' : Heap} (g : h.Grows h') : h.Persists h' where
  frames hf := by
    obtain ⟨f', hf', hg⟩ := g.frames hf
    exact ⟨f', hf', hg.parent, hg.binds⟩
  functions := g.functions
  classes := g.classes
  instances := g.instances

namespace Persists

theorem refl (h : Heap) : h.Persists h := (Grows.refl h).persists

theorem trans {h₁ h₂ h₃ : Heap} (a : h₁.Persists h₂) (b : h₂.Persists h₃) : h₁.Persists h₃ where
  frames hf := by
    obtain ⟨f₂, h2, hp2, hb2⟩ := a.frames hf
    obtain ⟨f₃, h3, hp3, hb3⟩ := b.frames h2
    exact ⟨f₃, h3, hp3.trans hp2, fun name hn => hb3 name (hb2 name hn)⟩
  functions hc := b.functions (a.functions hc)
  classes hc := b.classes (a.classes hc)
  instances ho := by
    obtain ⟨o₂, h2, hc2, hf2⟩ := a.instances ho
    obtain ⟨o₃, h3, hc3, hf3⟩ := b.instances h2
    exact ⟨o₃, h3, hc3.trans hc2, fun name hn => hf3 name (hf2 name hn)⟩

end Persists

/-- Binding a name takes no other name from a frame; here any name may be bound, also `this`. -/
theorem persists_define (h : Heap) (f : Id) (name : String) (v : Value) :
    h.Persists (h.define f name v) where
  frames {i frame} hf := by
    rw [getElem?_define]
    split
    · exact ⟨{ frame with vars := frame.vars.insert name v }, by rw [hf]; rfl, rfl,
        fun _ hb => Table.binds_insert hb⟩
    · exact ⟨frame, hf, rfl, fun _ hb => hb⟩
  functions hc := hc
  classes hc := hc
  instances ho := ⟨_, ho, rfl, fun _ hb => hb⟩

theorem persists_apply (e : Edit) (h : Heap) : h.Persists (e.apply h) := by
  cases e with
  | frame f => exact (grows_newFrame h f).persists
  | function c => exact (grows_newFunction h c).persists
  | cls c => exact (grows_newClass h c).persists
  | object c => exact (grows_newInstance h c).persists
  | bind f name v => exact persists_define h f name v
  | field o name v => exact (grows_setField h o name v).persists

/-- Editing takes nothing away. -/
theorem persists_of_edited {P : Heap → Edit → Prop} {h h' : Heap} (hh : Edited P h h') :
    h.Persists h' := by
  induction hh with
  | refl => exact .refl h
  | @tail h₁ h₂ _ hs ih =>
    obtain ⟨e, -, rfl⟩ := hs
    exact ih.trans (persists_apply e h₁)

end Lox.Heap

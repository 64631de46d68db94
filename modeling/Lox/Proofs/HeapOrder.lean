import Lox.Proofs.Conduct
import Lox.Proofs.Trace

/-!
# The order of the heap

A heap is in order if what it refers to is there, and if the frame around a frame and the superclass
of a class are older than these (`Heap.InOrder`). Every legal edit keeps a heap in order
(`inOrder_apply`), and tasks make no other edits (`Task.keeps`). In such a heap the ways outwards
and upwards come to an end (`InOrder.trails`), since they go to ever older places.

Main statement: every heap of a session is in order and comes from the ones before by legal edits
(`heap_in_order`).
-/

namespace Lox

/-! ## Heaps in order -/

/-- The frame may stand at the place `i`: an older frame is around it, unless it is that of the
globals, and its variables hold what is there. -/
structure Frame.Fits (h : Heap) (i : Id) (f : Frame) : Prop where
  parent : (f.parent = none ∧ i = globals) ∨ ∃ p, f.parent = some p ∧ p < i
  vars : ∀ name v, f.vars.lookup name = some v → h.There v

def Closure.Fits (h : Heap) (c : Closure) : Prop := c.frame < h.frames.size

/-- The class may stand at the place `i`: its superclass is older and its methods are there. -/
structure Class.Fits (h : Heap) (i : Id) (c : Class) : Prop where
  superclass : ∀ p, c.superclass = some p → p < i
  methods : ∀ name f, c.methods.lookup name = some f → f < h.functions.size

structure Instance.Fits (h : Heap) (o : Instance) : Prop where
  cls : o.cls < h.classes.size
  fields : ∀ name v, o.fields.lookup name = some v → h.There v

namespace Heap

/-- The invariant (module doc). -/
structure InOrder (h : Heap) : Prop where
  root : globals < h.frames.size
  frames : ∀ {i : Id} {f : Frame}, h.frames[i]? = some f → f.Fits h i
  functions : ∀ {i : Id} {c : Closure}, h.functions[i]? = some c → c.Fits h
  classes : ∀ {i : Id} {c : Class}, h.classes[i]? = some c → c.Fits h i
  instances : ∀ {i : Id} {o : Instance}, h.instances[i]? = some o → o.Fits h

/-- An edit that refers to nothing but what is there. -/
def Edit.Legal (h : Heap) : Edit → Prop
  | .frame f => f.parent.isSome = true ∧ f.Fits h h.frames.size
  | .function c => c.Fits h
  | .cls c => c.Fits h h.classes.size
  | .object c => c < h.classes.size
  | .bind f _ v => f < h.frames.size ∧ h.There v
  | .field o _ v => o < h.instances.size ∧ h.There v

/-! ## What is there stays there -/

section
variable {h h' : Heap}

namespace Persists

theorem frames_size (hp : h.Persists h') : h.frames.size ≤ h'.frames.size := by
  refine Nat.le_of_not_lt fun hlt => ?_
  obtain ⟨f', hf', -⟩ := hp.frames (Array.getElem?_eq_getElem hlt)
  rw [Array.getElem?_eq_none (Nat.le_refl _)] at hf'
  cases hf'

theorem there (hp : h.Persists h') {v : Value} (hv : h.There v) : h'.There v := by
  cases v with
  | function f =>
    exact (Array.getElem?_eq_some_iff.1 (hp.functions (Array.getElem?_eq_getElem hv))).1
  | cls c => exact (Array.getElem?_eq_some_iff.1 (hp.classes (Array.getElem?_eq_getElem hv))).1
  | object o =>
    obtain ⟨o', ho', -⟩ := hp.instances (Array.getElem?_eq_getElem hv)
    exact (Array.getElem?_eq_some_iff.1 ho').1
  | nil | bool _ | number _ | string _ | native _ => trivial

theorem frame (hp : h.Persists h') {i : Id} {f : Frame} (hf : f.Fits h i) : f.Fits h' i :=
  ⟨hf.parent, fun name v hl => hp.there (hf.vars name v hl)⟩

theorem closure (hp : h.Persists h') {c : Closure} (hc : c.Fits h) : c.Fits h' :=
  Nat.lt_of_lt_of_le hc hp.frames_size

theorem cls (hp : h.Persists h') {i : Id} {c : Class} (hc : c.Fits h i) : c.Fits h' i :=
  ⟨hc.superclass, fun name f hl => hp.there (v := .function f) (hc.methods name f hl)⟩

theorem object (hp : h.Persists h') {o : Instance} (ho : o.Fits h) : o.Fits h' :=
  ⟨hp.there (v := .cls o.cls) ho.cls, fun name v hl => hp.there (ho.fields name v hl)⟩

end Persists

/-! ## Legal edits -/

/-- A table that holds what is there, with one more entry. -/
theorem there_of_insert {t : Table Value} (ht : ∀ name v, t.lookup name = some v → h.There v)
    {name : String} {v : Value} (hv : h.There v) {other : String} {w : Value}
    (hl : (t.insert name v).lookup other = some w) : h.There w := by
  rcases Table.eq_or_of_insert hl with h1 | rfl
  · exact ht other w h1
  · exact hv

/-- Classes still fit where they stand after an edit, and so does a new one that fits. -/
theorem class_fits_apply (hc : ∀ {i : Id} {c : Class}, h.classes[i]? = some c → c.Fits h i)
    {e : Edit} (he : ∀ d, e = .cls d → d.Fits h h.classes.size) {i : Id} {c : Class}
    (hi : (e.apply h).classes[i]? = some c) : c.Fits (e.apply h) i := by
  have hp := persists_apply e h
  cases e with
  | cls d =>
    have hi : (h.classes.push d)[i]? = some c := hi
    rw [Array.getElem?_push] at hi
    split at hi
    · rename_i heq
      cases hi
      rw [heq]
      exact hp.cls (he _ rfl)
    · exact hp.cls (hc hi)
  | frame _ | function _ | object _ | bind _ _ _ | field _ _ _ => exact hp.cls (hc hi)

/-- **Legal edits keep a heap in order.** An edit touches one of the four kinds of objects; whatever
else there is, is there as before. -/
theorem inOrder_apply (ho : h.InOrder) {e : Edit} (he : e.Legal h) : (e.apply h).InOrder := by
  have hp := persists_apply e h
  refine ⟨Nat.lt_of_lt_of_le ho.root hp.frames_size, ?_, ?_, ?_, ?_⟩
  · -- frames: a new one, or one more variable
    intro i f hf
    cases e with
    | frame g =>
      rw [Edit.apply, getElem?_newFrame] at hf
      split at hf
      · rename_i heq
        cases hf
        rw [heq]
        exact hp.frame he.2
      · exact hp.frame (ho.frames hf)
    | bind g name v =>
      rw [Edit.apply, getElem?_define] at hf
      split at hf
      · obtain ⟨old, hold, rfl⟩ := Option.map_eq_some_iff.1 hf
        have hfit := hp.frame (ho.frames hold)
        exact ⟨hfit.parent, fun _ _ hl => there_of_insert hfit.vars (hp.there he.2) hl⟩
      · exact hp.frame (ho.frames hf)
    | function _ | cls _ | object _ | field _ _ _ => exact hp.frame (ho.frames hf)
  · intro i c hc
    cases e with
    | function d =>
      rcases eq_or_of_newFunction hc with h1 | rfl
      · exact hp.closure (ho.functions h1)
      · exact hp.closure he
    | frame _ | cls _ | object _ | bind _ _ _ | field _ _ _ => exact hp.closure (ho.functions hc)
  · intro i c hc
    exact class_fits_apply ho.classes (fun d hd => by subst hd; exact he) hc
  · -- instances: a new one, which has no fields yet, or one more field
    intro i o hi
    cases e with
    | object c =>
      have hi : (h.instances.push ⟨c, []⟩)[i]? = some o := hi
      rw [Array.getElem?_push] at hi
      split at hi
      · cases hi
        exact ⟨he, fun _ _ hl => by cases hl⟩
      · exact hp.object (ho.instances hi)
    | field p name v =>
      rw [Edit.apply, getElem?_setField] at hi
      split at hi
      · obtain ⟨old, hold, rfl⟩ := Option.map_eq_some_iff.1 hi
        have hfit := hp.object (ho.instances hold)
        exact ⟨hfit.cls, fun _ _ hl => there_of_insert hfit.fields (hp.there he.2) hl⟩
      · exact hp.object (ho.instances hi)
    | frame _ | function _ | cls _ | bind _ _ _ => exact hp.object (ho.instances hi)

/-- So does any number of them. -/
theorem inOrder_of_edited (hh : Edited Edit.Legal h h') (ho : h.InOrder) : h'.InOrder := by
  induction hh with
  | refl => exact ho
  | tail _ hs ih =>
    obtain ⟨e, he, rfl⟩ := hs
    exact inOrder_apply ih he

/-! ## The ways outwards and upwards -/

/-- The places that `next` leads to from `i`, step by step, until it leads no further. -/
inductive Trail (next : Id → Option Id) : Id → List Id → Prop
  | stop {i} (hn : next i = none) : Trail next i [i]
  | step {i j l} (hn : next i = some j) (ht : Trail next j l) : Trail next i (i :: l)

section
variable {next : Id → Option Id} {i : Id} {l : List Id}

/-- Where every step leads to an older place, a way that takes up to `n` steps, from a place below
`n`, is not cut short. -/
theorem Trail.of_within (hd : ∀ i j, next i = some j → j < i) {way : Nat → Id → List Id}
    (hw : ∀ n i, way (n + 1) i = i :: match next i with
      | some j => way n j
      | none => []) : ∀ {n i : Nat}, i < n → Trail next i (way n i)
  | n + 1, i, hi => by
    rw [hw]
    cases hn : next i with
    | none => exact .stop hn
    | some j =>
      have hj : j < n := Nat.lt_of_lt_of_le (hd i j hn) (Nat.le_of_lt_succ hi)
      exact .step hn (Trail.of_within hd hw hj)

theorem Trail.le (hd : ∀ i j, next i = some j → j < i) (ht : Trail next i l) : ∀ j ∈ l, j ≤ i := by
  induction ht with
  | stop _ =>
    intro j hj
    exact Nat.le_of_eq (List.mem_singleton.1 hj)
  | @step i k l hn _ ih =>
    intro j hj
    rcases List.mem_cons.1 hj with rfl | hj
    · exact Nat.le_refl j
    · exact Nat.le_trans (ih j hj) (Nat.le_of_lt (hd i k hn))

/-- A trail goes from younger to older places. -/
theorem Trail.pairwise (hd : ∀ i j, next i = some j → j < i) (ht : Trail next i l) :
    l.Pairwise (· > ·) := by
  induction ht with
  | stop _ => exact List.pairwise_singleton _ _
  | @step i k l hn ht ih =>
    refine List.pairwise_cons.2 ⟨fun j hj => ?_, ih⟩
    exact Nat.lt_of_le_of_lt (ht.le hd j hj) (hd i k hn)

theorem Trail.ancestor? {f : Id} (ht : Trail h.parent? f l) (k : Nat) : h.ancestor? f k = l[k]? := by
  induction ht generalizing k with
  | stop hn =>
    cases k with
    | zero => rfl
    | succ k => simp [Heap.ancestor?, hn]
  | step hn _ ih =>
    cases k with
    | zero => rfl
    | succ k => simp [Heap.ancestor?, hn, ih k]

end

/-- The frames around a frame come to an end in the globals, the superclasses of a class come to an
end too, and both get older on the way. The names of a frame are looked up along the first, and
methods along the second; counting frames outwards counts along the first. -/
structure Trails (h : Heap) : Prop where
  frames : ∀ f, f < h.frames.size → Trail h.parent? f (h.chain f) ∧
    (h.chain f).Pairwise (· > ·) ∧ (h.chain f).getLast? = some globals
  hops : ∀ f k, h.ancestor? f k = (h.chain f)[k]?
  classes : ∀ c, Trail h.superclass? c (h.lineage c) ∧ (h.lineage c).Pairwise (· > ·)

namespace InOrder

theorem parent_lt (ho : h.InOrder) : ∀ i j, h.parent? i = some j → j < i := by
  intro i j hj
  obtain ⟨f, hf, hparent⟩ := parent?_eq_some hj
  rcases (ho.frames hf).parent with ⟨hnone, -⟩ | ⟨p, hp, hlt⟩
  · rw [hnone] at hparent
    cases hparent
  · rw [hp] at hparent
    cases hparent
    exact hlt

theorem superclass_lt (ho : h.InOrder) : ∀ i j, h.superclass? i = some j → j < i := by
  intro i j hj
  obtain ⟨c, hc, hs⟩ := Option.bind_eq_some_iff.1 hj
  exact (ho.classes hc).superclass j hs

theorem trail_chain (ho : h.InOrder) (f : Id) : Trail h.parent? f (h.chain f) :=
  Trail.of_within ho.parent_lt (fun _ _ => rfl) (Nat.lt_succ_self f)

theorem trail_lineage (ho : h.InOrder) (c : Id) : Trail h.superclass? c (h.lineage c) :=
  Trail.of_within ho.superclass_lt (fun _ _ => rfl) (Nat.lt_succ_self c)

/-- The way outwards ends in the globals. -/
theorem getLast?_of_trail (ho : h.InOrder) {f : Id} {l : List Id} (ht : Trail h.parent? f l)
    (hf : f < h.frames.size) : l.getLast? = some globals := by
  induction ht with
  | @stop i hn =>
    have hi := Array.getElem?_eq_getElem hf
    rw [parent?_of_getElem? hi] at hn
    rcases (ho.frames hi).parent with ⟨-, rfl⟩ | ⟨p, hp, -⟩
    · rfl
    · rw [hp] at hn
      cases hn
  | @step i j l hn ht ih =>
    rw [List.getLast?_cons, ih (Nat.lt_trans (ho.parent_lt i j hn) hf)]
    rfl

theorem trails (ho : h.InOrder) : h.Trails where
  frames f hf := ⟨ho.trail_chain f, (ho.trail_chain f).pairwise ho.parent_lt,
    ho.getLast?_of_trail (ho.trail_chain f) hf⟩
  hops f k := (ho.trail_chain f).ancestor? k
  classes c := ⟨ho.trail_lineage c, (ho.trail_lineage c).pairwise ho.superclass_lt⟩

end InOrder

end

end Heap

/-! ## Tasks -/

open Heap Exec

/-- The heap is in order, and the current frame and the values in hand are there. -/
structure Machine.Holds (m : Machine) (hand : List Value) : Prop where
  heap : m.heap.InOrder
  frame : m.frame < m.heap.frames.size
  values : ∀ v ∈ hand, m.heap.There v

/-- What has happened between two machines: legal edits, and a return to the frame. -/
structure Machine.Keeps (m m' : Machine) : Prop where
  edited : Edited Edit.Legal m.heap m'.heap
  frame : m'.frame = m.frame

section
variable {s : Setting} {n : Nat} {task task' : Task} {m₀ m m' m₁ : Machine} {hand : List Value}

theorem Machine.Keeps.trans (h : m.Keeps m') (h' : m'.Keeps m₁) : m.Keeps m₁ :=
  ⟨Relation.ReflTransGen.trans h.edited h'.edited, h'.frame.trans h.frame⟩

theorem Heap.InOrder.there_of_shows {h : Heap} (ho : h.InOrder) {v : Value} (hv : h.Shows v) :
    h.There v := by
  cases hv with
  | plain hp => exact there_of_isPlain hp h
  | bound hl =>
    obtain ⟨f, hf, hl⟩ := lookup_vars_eq_some hl
    exact (ho.frames hf).vars _ _ hl
  | @field o _ _ hl =>
    cases hi : h.instances[o]? with
    | none => simp [Heap.fields, hi] at hl
    | some i => exact (ho.instances hi).fields _ _ (by simpa [Heap.fields, hi] using hl)
  | @method c _ _ hl =>
    cases hc : h.classes[c]? with
    | none => simp [Heap.methods, hc] at hl
    | some cls => exact (ho.classes hc).methods _ _ (by simpa [Heap.methods, hc] using hl)
  | function hf => exact hf
  | cls hc => exact hc
  | object ho => exact ho

theorem Machine.Place.lt {p : Id} (hp : m.Place p) (hm : m.Holds hand) :
    p < m.heap.frames.size := by
  cases hp with
  | current h => exact h ▸ hm.frame
  | closure hc h => exact h ▸ hm.heap.functions hc
  | there h => exact h

/-- What an edit is made of is there. -/
theorem Heap.Edit.Drawn.legal {e : Edit} (he : e.Drawn task hand m) (hm : m.Holds hand) :
    e.Legal m.heap := by
  cases e with
  | frame f =>
    obtain ⟨⟨p, hparent, hp⟩, hvars⟩ := he
    refine ⟨by rw [hparent]; rfl, .inr ⟨p, hparent, hp.lt hm⟩, fun name v hl => ?_⟩
    exact hm.values v (hvars name v hl)
  | function c => exact he.1.lt hm
  | cls c => exact ⟨fun p hp => hm.values _ (he.1 p hp), he.2⟩
  | object c => exact hm.values _ he
  | bind f name v => exact ⟨he.1.lt hm, hm.values v he.2⟩
  | field o name v => exact ⟨hm.values _ he.1, hm.values v he.2⟩

/-- What is in hand stays there. -/
theorem Machine.Holds.keep (hm : m.Holds hand) (h : m.Keeps m') : m'.Holds hand := by
  have hp := persists_of_edited h.edited
  refine ⟨inOrder_of_edited h.edited hm.heap, ?_, fun v hv => hp.there (hm.values v hv)⟩
  rw [h.frame]
  exact Nat.lt_of_lt_of_le hm.frame hp.frames_size

theorem Machine.Holds.append (hm : m.Holds hand) {vs : List Value}
    (hv : ∀ v ∈ vs, m.heap.There v) : m.Holds (vs ++ hand) := by
  refine ⟨hm.heap, hm.frame, fun v hmem => ?_⟩
  rcases List.mem_append.1 hmem with h | h
  · exact hv v h
  · exact hm.values v h

theorem Machine.Holds.cons (hm : m.Holds hand) {v : Value} (hv : m.heap.There v) :
    m.Holds (v :: hand) := by
  have hvs : ∀ w ∈ [v], m.heap.There w := fun w hw => List.mem_singleton.1 hw ▸ hv
  exact hm.append hvs

/-- Behind the door through which it is begun, a task finds what it needs. -/
theorem Begins.holds {door : Door} (hb : Begins s n task m₀ hand m door task')
    (hm : m.Holds hand) : (door.enter s m).Holds task'.values := by
  have hl := hb.leads
  have hv : ∀ v ∈ task'.values, m.heap.There v := fun v hv => hm.values v (hb.values v hv)
  cases door with
  | here | call c => exact ⟨hm.heap, hm.frame, hv⟩
  | frame g => exact ⟨hm.heap, hl, hv⟩

theorem Door.keeps_leave {door : Door} (h : (door.enter s m).Keeps m') :
    m.Keeps (door.leave m m') := by
  cases door with
  | here | call c => exact ⟨h.edited, h.frame⟩
  | frame g => exact ⟨h.edited, rfl⟩

theorem Door.keeps_stop {door : Door} {i : Interrupt} (h : (door.enter s m).Keeps m') :
    m.Keeps (door.stop i m m') := by
  cases door with
  | here => exact h
  | frame g => exact ⟨h.edited, rfl⟩
  | call c => cases i <;> exact ⟨h.edited, h.frame⟩

/-- A native gives back what is there. -/
theorem Native.Honest.there {native : Native} (hn : native.Honest) {h : Heap} {args : List Value}
    (ha : ∀ a ∈ args, h.There a) {clock clock' : Clock} {v : Value}
    (hv : native.act args clock = (.ok v, clock')) : h.There v := by
  rcases hn args clock v clock' hv with hp | hm
  · exact there_of_isPlain hp h
  · exact ha v hm

/-- What a task that finds what it needs does: it makes legal edits only, and what it comes to is
there. -/
def Task.Keeps (s : Setting) (n : Nat) (task : Task) : Prop :=
  ∀ m, m.Holds task.values → Ends (task.run s n) m
    (fun vs m' => m.Keeps m' ∧ ∀ v ∈ vs, m'.heap.There v) (fun _ m' => m.Keeps m')

variable (hn : ∀ native ∈ s.natives, native.Honest)
include hn

/-- The machines that a task passes through, and what it has in hand there. -/
theorem Passes.keeps (ih : ∀ task : Task, task.Keeps s n) (h : Passes s n task m₀ hand m)
    (h₀ : m₀.Holds task.values) : m₀.Keeps m ∧ m.Holds hand := by
  induction h with
  | start => exact ⟨⟨.refl, rfl⟩, h₀⟩
  | take _ hv ih' => exact ⟨ih'.1, ih'.2.cons (ih'.2.heap.there_of_shows hv)⟩
  | @edit hand m e _ he ih' =>
    have hk : m.Keeps { m with heap := e.apply m.heap } :=
      ⟨Edited.edit .refl (he.legal ih'.2), rfl⟩
    exact ⟨ih'.1.trans hk, ih'.2.keep hk⟩
  | print _ ih' => exact ⟨⟨ih'.1.edited, ih'.1.frame⟩, ⟨ih'.2.heap, ih'.2.frame, ih'.2.values⟩⟩
  | tick _ ih' => exact ⟨⟨ih'.1.edited, ih'.1.frame⟩, ⟨ih'.2.heap, ih'.2.frame, ih'.2.values⟩⟩
  | @native hand m native args v clock _ hnat ha hv ih' =>
    have hthere := (hn native hnat).there (fun a hm => ih'.2.values a (ha a hm)) hv
    have hm : m.Holds (v :: hand) := ih'.2.cons hthere
    exact ⟨⟨ih'.1.edited, ih'.1.frame⟩, ⟨hm.heap, hm.frame, hm.values⟩⟩
  | @run hand m door task' vs m' _ hb hr ih' =>
    obtain ⟨hk, hvs⟩ := (ih task' _ (hb.holds ih'.2)).ok hr
    have hback := Door.keeps_leave hk
    refine ⟨ih'.1.trans hback, (ih'.2.keep hback).append fun v hv => ?_⟩
    cases door <;> exact hvs v hv

/-- **Tasks make legal edits only.** By induction on the fuel. -/
theorem Task.keeps : ∀ (n : Nat) (task : Task), task.Keeps s n
  | 0, task => fun m _ => ends_of_error (task.run_zero s m) ⟨.refl, rfl⟩
  | n + 1, task => by
    intro m hm
    have passes : ∀ {hand m'}, Passes s n task m hand m' → m.Keeps m' ∧ m'.Holds hand :=
      fun hp => hp.keeps hn (Task.keeps n) hm
    refine (task.ends_run s n m).mono ?_ ?_
    · rintro vs m' - ⟨hand, hp, hvs⟩
      obtain ⟨hk, hh⟩ := passes hp
      exact ⟨hk, fun v hv => hh.values v (hvs v hv)⟩
    · intro i m' hs
      cases hs with
      | own hp _ => exact (passes hp).1
      | begun hp hb hr =>
        obtain ⟨hk, hh⟩ := passes hp
        exact hk.trans (Door.keeps_stop ((Task.keeps n _ _ (hb.holds hh)).error hr))

/-- A task that is begun finds what it needs. -/
theorem Calls.holds (hc : Calls s n task m task' m') (hm : m.Holds task.values) :
    m'.Holds task'.values := by
  obtain ⟨hand, m₁, door, hp, hb, rfl⟩ := hc.begins
  exact hb.holds (hp.keeps hn (Task.keeps hn n) hm).2

end

/-! ## Sessions -/

namespace Session

/-- The machine before the first source: the globals hold natives. -/
theorem holds_initial (natives : List Native) (clock : Clock) :
    (Machine.initial natives clock).Holds [] := by
  have hempty : ∀ {α : Type} {i : Nat} {a : α}, (#[] : Array α)[i]? ≠ some a := by simp
  refine ⟨⟨Nat.zero_lt_one, fun {i f} hf => ?_, fun hc => absurd hc hempty,
    fun hc => absurd hc hempty, fun ho => absurd ho hempty⟩, Nat.zero_lt_one, List.forall_mem_nil _⟩
  have hf : (Heap.newFrame {} ⟨_, none⟩).2.frames[i]? = some f := hf
  rw [getElem?_newFrame] at hf
  split at hf
  · rename_i heq
    cases hf
    refine ⟨.inl ⟨rfl, heq⟩, fun name v hl => ?_⟩
    rcases Table.lookup_insertAll hl with hm | ⟨hl, -⟩
    · obtain ⟨⟨native, id⟩, -, he⟩ := List.mem_map.1 hm
      cases he
      trivial
    · cases hl
  · exact absurd hf hempty

section
variable {s : Setting} (hn : ∀ native ∈ s.natives, native.Honest)
include hn

theorem keeps_executeEach (fuel : Nat) : ∀ (stmts : List Stmt) {m : Machine}, m.Holds [] →
    Ends (executeEach s fuel stmts) m (fun _ m' => m.Keeps m') (fun _ m' => m.Keeps m')
  | [], m, _ => ends_pure ⟨.refl, rfl⟩
  | stmt :: rest, m, hm => by
    have hx := (Task.keeps hn fuel (.execute stmt) m hm).of_map
    refine Ends.bind (hx.mono (fun _ _ _ h => h.1) fun _ _ h => h) fun c m₁ _ h₁ => ?_
    exact (keeps_executeEach fuel rest (hm.keep h₁)).mono (fun _ _ _ h => h₁.trans h)
      fun _ _ h => h₁.trans h

theorem keeps_run (fuel : Nat) (source : String) {m : Machine} (hm : m.Holds [])
    (hf : m.frame = globals) : m.Keeps (run s fuel source {} m).machine := by
  have hb : (begun s source m).Holds [] := ⟨hm.heap, hm.frame, hm.values⟩
  have hx := keeps_executeEach hn fuel (Program.compile source).bound hb
  have h := ran s fuel source m
  generalize run s fuel source {} m = outcome at h ⊢
  cases h with
  | rejected _ => exact ⟨.refl, rfl⟩
  | finished _ he => exact ⟨(hx.ok he).edited, (hx.ok he).frame⟩
  | interrupted _ he hframe =>
    exact ⟨(hx.error he).edited, hframe.elim (·.trans (hx.error he).frame) (·.trans hf.symm)⟩

theorem keeps_foldl : ∀ (runs : List (Nat × String)) {m : Machine}, m.Holds [] →
    m.frame = globals → m.Keeps (runs.foldl (fun m r => (run s r.1 r.2 {} m).machine) m)
  | [], m, _, _ => ⟨.refl, rfl⟩
  | (fuel, source) :: rest, m, hm, hf => by
    have h₁ := keeps_run hn fuel source hm hf
    exact h₁.trans (keeps_foldl rest (hm.keep h₁) (h₁.frame.trans hf))

variable (clock : Clock) (runs : List (Nat × String))

theorem holds_after : (after s clock runs).Holds [] ∧ (after s clock runs).frame = globals := by
  have hm := holds_initial s.natives clock
  have hk := keeps_foldl hn runs hm rfl
  exact ⟨hm.keep hk, hk.frame⟩

theorem keeps_after_append (later : List (Nat × String)) :
    (after s clock runs).Keeps (after s clock (runs ++ later)) := by
  obtain ⟨hm, hf⟩ := holds_after hn clock runs
  have hk := keeps_foldl hn later hm hf
  rwa [after, ← List.foldl_append] at hk

/-- Every task of a session finds what it needs. -/
theorem Moment.holds {clock : Clock} {runs : List (Nat × String)} {n : Nat} {task : Task}
    {m : Machine} (hm : Moment s clock runs n task m) : m.Holds task.values := by
  induction hm with
  | @statement earlier later fuel source before stmt rest m hr ha hs hx =>
    have h₀ := (holds_after hn clock earlier).1
    have hb : (begun s source (after s clock earlier)).Holds [] := ⟨h₀.heap, h₀.frame, h₀.values⟩
    exact hb.keep ((keeps_executeEach hn fuel before hb).ok hx)
  | call _ hc ih => exact hc.holds hn ih

end

/-- From one machine of a session to a later one, with some values in hand: the heap is in order,
what it leads to comes to an end, and it comes from the other by legal edits, which take nothing
away. -/
structure Advances (m m' : Machine) (hand : List Value) : Prop where
  holds : m'.Holds hand
  trails : m'.heap.Trails
  edited : Edited Edit.Legal m.heap m'.heap
  persists : m.heap.Persists m'.heap

theorem Advances.of_keeps {m m' : Machine} {hand : List Value} (h : m.Keeps m')
    (hm : m'.Holds hand) : Advances m m' hand :=
  ⟨hm, hm.heap.trails, h.edited, persists_of_edited h.edited⟩

/-- **The heap stays in order.** In every machine between the sources of a session, and in every
machine in which a task of it begins or ends, however it ends: what is referred to is there, and the
ways outwards and upwards lead to ever older places and come to an end, those of the frames in the
globals. Heaps change by legal edits only, each of which keeps all this, and takes nothing away. -/
theorem heap_in_order (s : Setting) (hn : ∀ native ∈ s.natives, native.Honest) (clock : Clock)
    (runs : List (Nat × String)) :
    (∀ earlier later, runs = earlier ++ later →
      (after s clock earlier).Holds [] ∧ (after s clock earlier).heap.Trails ∧
        Advances (after s clock earlier) (after s clock runs) []) ∧
    (∀ n task m, Moment s clock runs n task m →
      m.Holds task.values ∧ m.heap.Trails ∧
        (∀ vs m', task.run s n m = .ok vs m' → Advances m m' vs) ∧
        ∀ i m', task.run s n m = .error i m' → Advances m m' []) ∧
    ∀ (h : Heap) (e : Edit), h.InOrder → e.Legal h →
      (e.apply h).InOrder ∧ (e.apply h).Trails ∧ h.Persists (e.apply h) := by
  refine ⟨?_, fun n task m hm => ?_, fun h e ho he => ?_⟩
  · rintro earlier later rfl
    have hm := (holds_after hn clock earlier).1
    have hk := keeps_after_append hn clock earlier later
    exact ⟨hm, hm.heap.trails, .of_keeps hk (hm.keep hk)⟩
  · have hh := hm.holds hn
    have hx := Task.keeps hn n task m hh
    refine ⟨hh, hh.heap.trails, fun vs m' hr => ?_, fun i m' hr => ?_⟩
    · obtain ⟨hk, hvs⟩ := hx.ok hr
      have hm' := hh.keep hk
      exact .of_keeps hk ⟨hm'.heap, hm'.frame, hvs⟩
    · have hk := hx.error hr
      have hm' := hh.keep hk
      exact .of_keeps hk ⟨hm'.heap, hm'.frame, List.forall_mem_nil _⟩
  · have ho' := inOrder_apply ho he
    exact ⟨ho', ho'.trails, persists_apply e h⟩

/-- A class that inherits from another one of its own name, and the method of the other, which is
called through `super`. -/
theorem heap_in_order_of_same_name :
    let s : Setting := { path := "", natives := [Native.clock] }
    let runs := [(30, "class A \x7b m() \x7b this.x = nil; \x7d \x7d var B = A;"),
      (30, "class A < B \x7b m() \x7b super.m(); \x7d \x7d \x7b A().m(); \x7d")]
    let m := after s [] runs
    (∀ native ∈ s.natives, native.Honest) ∧
    (m.heap.lineage 1 = [1, 0] ∧ m.Holds [] ∧ m.heap.Trails) ∧
    (∃ n task m₁ vs m₂, Moment s [] runs n task m₁ ∧ task.values = [.function 3] ∧
      m₁.heap.chain m₁.frame = [4, 3, 1, 0] ∧ task.run s n m₁ = .ok vs m₂ ∧ Advances m₁ m₂ vs) ∧
    (Edit.Legal m.heap (.object 1) ∧ ((Edit.object 1).apply m.heap).InOrder) := by
  intro s runs m
  obtain ⟨hrest, htask, hedit⟩ := heap_in_order s honest_clock [] runs
  obtain ⟨hlineage, hlegal⟩ : m.heap.lineage 1 = [1, 0] ∧ 1 < m.heap.classes.size := by
    decide +kernel
  obtain ⟨hm, htrails, -⟩ := hrest runs [] (List.append_nil runs).symm
  have hany : (moments s [] runs).any (fun x => x.2.1.values == [.function 3] &&
      x.2.2.heap.chain x.2.2.frame == [4, 3, 1, 0] && ((x.2.1.run s x.1).run' x.2.2).isSome) = true := by
    decide +kernel
  obtain ⟨⟨n, task, m₁⟩, hmem, hx⟩ := List.any_eq_true.1 hany
  simp only [Bool.and_eq_true, beq_iff_eq] at hx
  obtain ⟨⟨hvalues, hchain⟩, hsome⟩ := hx
  obtain ⟨vs, hvs⟩ := Option.isSome_iff_exists.1 hsome
  obtain ⟨m₂, hr⟩ := ok_of_run' hvs
  have hmoment := moment_of_mem _ hmem
  exact ⟨honest_clock, ⟨hlineage, hm, htrails⟩, ⟨n, task, m₁, vs, m₂, hmoment, hvalues, hchain, hr,
    (htask n task m₁ hmoment).2.2.1 vs m₂ hr⟩, hlegal, (hedit m.heap (.object 1) hm.heap hlegal).1⟩

end Session

end Lox

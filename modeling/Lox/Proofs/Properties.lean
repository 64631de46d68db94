import Lox.Proofs.Variables

/-!
# Properties of instances

What an instance has under a name is decided by what was done before: it is the value that was set
last under that name on this very instance, or else the method of the nearest class upwards that has
one, or else nothing. What was done is told by the edits alone (`History`), without a heap: the
classes and the instances that were made, and the values that were set. A machine to which a history
leads obeys the laws of `Machine.PropertyLaws`.

Main statement: `Machine.properties_obey_laws`. All edits of a session are founded, so the laws hold
wherever one of its tasks begins or ends (`Session.Moment.propertyLaws`).
-/

namespace Lox

open Heap

/-! ## Histories -/

/-- The edits that lead to a heap, from the first to the last. -/
abbrev History := List Edit

namespace History

/-- The classes that were made, in their order. -/
def classes (es : History) : List Class :=
  es.filterMap fun
    | .cls c => some c
    | _ => none

/-- The instances that were made, in their order, each as its class. -/
def instances (es : History) : List Id :=
  es.filterMap fun
    | .object c => some c
    | _ => none

/-- The values that a field of an instance was set to, in their order. -/
def settings (es : History) (o : Id) (name : String) : List Value :=
  es.filterMap fun
    | .field o' name' v => if o' = o ∧ name' = name then some v else none
    | _ => none

def lastSet? (es : History) (o : Id) (name : String) : Option Value := (es.settings o name).getLast?

def superclass? (es : History) (c : Id) : Option Id := es.classes[c]?.bind (·.superclass)

/-- The method that a class itself has under a name. -/
def method? (es : History) (c : Id) (name : String) : Option Id :=
  es.classes[c]?.bind (·.methods.lookup name)

/-- `d` is the nearest class from `c` upwards that has a method of that name, and the method is
`f`. -/
def Finds (es : History) (c : Id) (name : String) (d f : Id) : Prop :=
  (∃ k, Nearest es.superclass? (fun d => (es.method? d name).isSome = true) c k d) ∧
    es.method? d name = some f

end History

/-- A class and an instance are made of what is there, and a field is set on an instance that is
there. -/
def Heap.Edit.Founded (h : Heap) : Edit → Prop
  | .cls c => c.Fits h h.classes.size
  | .object c => c < h.classes.size
  | .field o _ _ => o < h.instances.size
  | .frame _ | .function _ | .bind _ _ _ => True

/-- Every edit is founded in the heap that it is made in. -/
def History.FoundedIn (h : Heap) : History → Prop
  | [] => True
  | e :: es => e.Founded h ∧ FoundedIn (e.apply h) es

section
variable {h : Heap}

theorem Class.fits_iff {i : Id} {c : Class} : c.Fits h i ↔
    (∀ p ∈ c.superclass, p < i) ∧
      ∀ e ∈ c.methods, ∀ f ∈ c.methods.lookup e.1, f < h.functions.size := by
  constructor
  · intro hc
    exact ⟨hc.superclass, fun e _ f hf => hc.methods e.1 f hf⟩
  · rintro ⟨hsuper, hmethods⟩
    refine ⟨hsuper, fun name f hf => ?_⟩
    obtain ⟨before, behind, he, -⟩ := List.lookup_eq_some_iff.1 hf
    exact hmethods (name, f) (by simp [he]) f hf

instance {i : Id} {c : Class} : Decidable (c.Fits h i) := decidable_of_iff _ Class.fits_iff.symm

instance : (e : Edit) → Decidable (e.Founded h)
  | .cls c => inferInstanceAs (Decidable (c.Fits h h.classes.size))
  | .object c => inferInstanceAs (Decidable (c < h.classes.size))
  | .field o _ _ => inferInstanceAs (Decidable (o < h.instances.size))
  | .frame _ | .function _ | .bind _ _ _ => isTrue trivial

instance decidableFoundedIn : (h : Heap) → (es : History) → Decidable (es.FoundedIn h)
  | _, [] => isTrue trivial
  | h, e :: es =>
    have := decidableFoundedIn (e.apply h) es
    inferInstanceAs (Decidable (e.Founded h ∧ History.FoundedIn (e.apply h) es))

end

/-- The heap after some edits. -/
def Heap.edit (h : Heap) (es : History) : Heap := es.foldl (fun h e => e.apply h) h

/-! ## The laws -/

/-- `h'` is `h` with a new function `g`: the method `f`, with a new frame around its code in which
`this` is the instance `o`. -/
structure Heap.BindsAnew (h : Heap) (f o g : Id) (h' : Heap) : Prop where
  fresh : g = h.functions.size
  bound : ∃ closure, h.functions[f]? = some closure ∧
    h'.frames = h.frames.push ⟨[("this", .object o)], some closure.frame⟩ ∧
    h'.functions = h.functions.push { closure with frame := h.frames.size }
  others : h'.classes = h.classes ∧ h'.instances = h.instances

namespace Machine

/-- A machine in which a field has been set. -/
def withField (m : Machine) (o : Id) (name : String) (v : Value) : Machine :=
  { m with heap := m.heap.setField o name v }

/-- What the properties of instances are after a history. -/
structure PropertyLaws (m : Machine) (es : History) : Prop where
  /-- Classes and instances have their places in the order in which they were made. -/
  places : m.heap.classes.size = es.classes.length ∧ m.heap.instances.size = es.instances.length
  /-- What was set on an instance is read from it. -/
  field : ∀ o (t : Token) v, es.lastSet? o t.lexeme = some v →
    Eval.getProperty (.object o) t m = .ok v m
  /-- Where nothing was set, the nearest method is read, bound anew. -/
  method : ∀ o c (t : Token) d f, es.instances[o]? = some c → es.lastSet? o t.lexeme = none →
    es.Finds c t.lexeme d f → ∃ g h',
      Eval.getProperty (.object o) t m = .ok (.function g) { m with heap := h' } ∧
        m.heap.BindsAnew f o g h'
  /-- Reading fails where there is neither, and only there. The machine is then as it was. -/
  undefined : ∀ o c (t : Token), es.instances[o]? = some c →
    let fault : Fault := ⟨t, .undefinedProperty t.lexeme, []⟩
    fault.reason.message = "Undefined property '" ++ t.lexeme ++ "'." ∧
      (Eval.getProperty (.object o) t m = .error (.fault fault) m ↔
        es.lastSet? o t.lexeme = none ∧ ∀ d f, ¬ es.Finds c t.lexeme d f)
  /-- A class finds the nearest method. -/
  finds : ∀ c name d f, m.heap.findMethod? c name = some (d, f) ↔ es.Finds c name d f
  /-- A class takes the arguments of the nearest initializer. -/
  arity : ∀ c, (∀ d f, es.Finds c initName d f → m.heap.classArity c = m.heap.functionArity f) ∧
    ((∀ d f, ¬ es.Finds c initName d f) → m.heap.classArity c = 0)
  /-- A field that is set on one instance, whatever its name, is not seen from another one. -/
  apart : ∀ o name v o' (t : Token), o' ≠ o →
    (∀ w m', Eval.getProperty (.object o') t m = .ok w m' →
      Eval.getProperty (.object o') t (m.withField o name v) = .ok w (m'.withField o name v)) ∧
    ∀ i m', Eval.getProperty (.object o') t m = .error i m' →
      Eval.getProperty (.object o') t (m.withField o name v) = .error i (m'.withField o name v)
  /-- Nor is it seen by any class. -/
  unseen : ∀ o name v c other,
    (m.withField o name v).heap.findMethod? c other = m.heap.findMethod? c other ∧
      (m.withField o name v).heap.classArity c = m.heap.classArity c

end Machine

/-! ## What a history makes -/

namespace Heap

section
variable {h : Heap} {es : History}

theorem classes_edit (h : Heap) (es : History) :
    (h.edit es).classes.toList = h.classes.toList ++ es.classes := by
  induction es generalizing h with
  | nil => exact (List.append_nil _).symm
  | cons e es ih =>
    refine (ih (e.apply h)).trans ?_
    cases e with
    | cls c => simp [Edit.apply, newClass, History.classes]
    | frame _ | function _ | object _ | bind _ _ _ | field _ _ _ => rfl

/-- Whatever is set on an instance, it keeps its class. -/
theorem map_cls_setField (h : Heap) (o : Id) (name : String) (v : Value) :
    (h.setField o name v).instances.toList.map (·.cls) = h.instances.toList.map (·.cls) := by
  refine List.ext_getElem? fun i => ?_
  have hi := classOf?_setField h o name v i
  simpa only [classOf?, List.getElem?_map, Array.getElem?_toList] using hi

theorem instances_edit (h : Heap) (es : History) :
    (h.edit es).instances.toList.map (·.cls) = h.instances.toList.map (·.cls) ++ es.instances := by
  induction es generalizing h with
  | nil => exact (List.append_nil _).symm
  | cons e es ih =>
    refine (ih (e.apply h)).trans ?_
    cases e with
    | object c => simp [Edit.apply, newInstance, History.instances]
    | field o name v => exact congrArg (· ++ History.instances es) (map_cls_setField h o name v)
    | frame _ | function _ | cls _ | bind _ _ _ => rfl

/-- A first edit counts where no later one sets the same field. -/
theorem lastSet?_cons (e : Edit) (es : History) (o : Id) (name : String) :
    History.lastSet? (e :: es) o name = (es.lastSet? o name).or (History.lastSet? [e] o name) := by
  unfold History.lastSet? History.settings
  rw [← List.singleton_append, List.filterMap_append, List.getLast?_append]

theorem lastSet?_field (p : Id) (other : String) (v : Value) (o : Id) (name : String) :
    History.lastSet? [.field p other v] o name = if p = o ∧ other = name then some v else none := by
  by_cases h : p = o ∧ other = name <;> simp [History.lastSet?, History.settings, h]

/-- An edit sets one field or none. -/
theorem lookup_fields_apply {e : Edit} (he : e.Founded h) (o : Id) (name : String) :
    ((e.apply h).fields o).lookup name =
      (History.lastSet? [e] o name).or ((h.fields o).lookup name) := by
  cases e with
  | object c =>
    -- the new instance has no fields, and none were read at its place before
    have hnew : (h.newInstance c).2.fields o = h.fields o := by
      rw [fields_newInstance]
      split
      · rename_i ho
        simp [ho, fields]
      · rfl
    exact congrArg (·.lookup name) hnew
  | field p other v =>
    rw [Edit.apply, fields_setField, lastSet?_field]
    by_cases hp : p = o
    · subst hp
      rw [if_pos ⟨rfl, he⟩, Table.lookup_insert]
      by_cases hn : other = name
      · rw [if_pos hn.symm, if_pos ⟨rfl, hn⟩, Option.some_or]
      · rw [if_neg (Ne.symm hn), if_neg fun h => hn h.2, Option.none_or]
    · rw [if_neg fun h => hp h.1, if_neg fun h => hp h.1, Option.none_or]
  | frame _ | function _ | cls _ | bind _ _ _ => rfl

/-- **A field holds what was last set**, or else what it held before. -/
theorem lookup_fields_edit (hes : es.FoundedIn h) (o : Id) (name : String) :
    ((h.edit es).fields o).lookup name = (es.lastSet? o name).or ((h.fields o).lookup name) := by
  induction es generalizing h with
  | nil => rfl
  | cons e es ih =>
    obtain ⟨he, hes⟩ := hes
    refine (ih hes).trans ?_
    rw [lookup_fields_apply he, lastSet?_cons e es, Option.or_assoc]

/-- The superclass of a class is older than the class, and its methods are there. -/
theorem class_fits_edit (hes : es.FoundedIn h)
    (hfits : ∀ {i : Id} {c : Class}, h.classes[i]? = some c → c.Fits h i) :
    ∀ {i : Id} {c : Class}, (h.edit es).classes[i]? = some c → c.Fits (h.edit es) i := by
  induction es generalizing h with
  | nil => exact hfits
  | cons e es ih =>
    obtain ⟨he, hes⟩ := hes
    exact ih hes fun hc => class_fits_apply hfits (fun d hd => by subst hd; exact he) hc

end

/-! ## Reading a property -/

section
variable {h : Heap} {c d f o : Id} {name : String}

/-- **A class finds the nearest method.** -/
theorem findMethod?_eq_some_iff (hlt : ∀ i j, h.superclass? i = some j → j < i) :
    h.findMethod? c name = some (d, f) ↔
      (∃ k, Nearest h.superclass? (fun d => ((h.methods d).lookup name).isSome = true) c k d) ∧
        (h.methods d).lookup name = some f := by
  have htrail : Trail h.superclass? c (h.lineage c) :=
    Trail.of_within hlt (fun _ _ => rfl) (Nat.lt_succ_self c)
  rw [findMethod?, findSome?_eq_bind_find?]
  simp only [Option.isSome_map]
  constructor
  · intro hfind
    obtain ⟨d', hd, hf⟩ := Option.bind_eq_some_iff.1 hfind
    obtain ⟨f', hf, he⟩ := Option.map_eq_some_iff.1 hf
    cases he
    exact ⟨Nearest.of_find? htrail hd, hf⟩
  · rintro ⟨⟨k, hn⟩, hf⟩
    rw [hn.find? htrail, Option.bind_some, hf, Option.map_some]

theorem bindsAnew_bindMethod {closure : Closure} (hf : h.functions[f]? = some closure) (o : Id) :
    h.BindsAnew f o (h.bindMethod f o).1 (h.bindMethod f o).2 := by
  rw [bindMethod_eq hf]
  exact ⟨rfl, ⟨closure, hf, rfl, rfl⟩, rfl, rfl⟩

/-- Binding a method leaves the fields alone, and setting a field leaves functions and frames
alone. -/
theorem bindMethod_setField (h : Heap) (f o o' : Id) (name : String) (v : Value) :
    (h.setField o name v).bindMethod f o' =
      ((h.bindMethod f o').1, (h.bindMethod f o').2.setField o name v) := by
  have hfunctions : (h.setField o name v).functions = h.functions := rfl
  unfold bindMethod
  rw [hfunctions]
  cases h.functions[f]? <;> rfl

theorem property?_setField {o' : Id} (hne : o' ≠ o) (other : String) (v : Value) :
    (h.setField o name v).property? o' other = h.property? o' other := by
  have hfields : (h.setField o name v).fields o' = h.fields o' := by
    rw [fields_setField, if_neg fun ho => hne ho.1.symm]
  have hclasses : (h.setField o name v).classes = h.classes := rfl
  simp only [property?, hfields, classOf?_setField, findMethod?_congr hclasses]

theorem classArity_setField (h : Heap) (o : Id) (name : String) (v : Value) (c : Id) :
    (h.setField o name v).classArity c = h.classArity c := by
  have hclasses : (h.setField o name v).classes = h.classes := rfl
  unfold classArity initializer?
  rw [findMethod?_congr hclasses]
  rfl

end

end Heap

/-- **A field of one instance is not seen from another.** -/
theorem Eval.getProperty_withField {o o' : Id} (hne : o' ≠ o) (t : Token) (m : Machine)
    (name : String) (v : Value) :
    Eval.getProperty (.object o') t (m.withField o name v) =
      match Eval.getProperty (.object o') t m with
      | .ok w m' => .ok w (m'.withField o name v)
      | .error i m' => .error i (m'.withField o name v) := by
  have hproperty : (m.withField o name v).heap.property? o' t.lexeme =
      m.heap.property? o' t.lexeme := property?_setField hne t.lexeme v
  rw [Eval.getProperty_object, Eval.getProperty_object, hproperty]
  cases m.heap.property? o' t.lexeme with
  | none => rfl
  | some p =>
    cases p with
    | field w => rfl
    | method f =>
      have hbind := bindMethod_setField m.heap f o o' name v
      simp only [Machine.withField, hbind]

/-! ## A machine and its history -/

/-- The history leads to the machine, from a heap without classes and instances. -/
structure History.LeadsTo (es : History) (start : Heap) (m : Machine) : Prop where
  founded : es.FoundedIn start
  classes : start.classes = #[]
  instances : start.instances = #[]
  heap : m.heap = start.edit es

namespace History.LeadsTo

variable {es : History} {start : Heap} {m : Machine} (hl : es.LeadsTo start m)
include hl

theorem toList_classes : m.heap.classes.toList = es.classes := by
  rw [hl.heap, classes_edit, hl.classes]
  rfl

theorem map_cls_instances : m.heap.instances.toList.map (·.cls) = es.instances := by
  rw [hl.heap, instances_edit, hl.instances]
  rfl

theorem classOf?_eq (o : Id) : m.heap.classOf? o = es.instances[o]? := by
  rw [← hl.map_cls_instances, List.getElem?_map, Array.getElem?_toList]
  rfl

theorem superclass?_eq : m.heap.superclass? = es.superclass? := by
  funext c
  rw [Heap.superclass?, ← Array.getElem?_toList, hl.toList_classes]
  rfl

theorem lookup_methods (c : Id) (name : String) :
    (m.heap.methods c).lookup name = es.method? c name := by
  rw [methods, ← Array.getElem?_toList, hl.toList_classes, method?]
  cases es.classes[c]? <;> rfl

theorem lookup_fields (o : Id) (name : String) :
    (m.heap.fields o).lookup name = es.lastSet? o name := by
  have hnone : start.fields o = [] := by simp [fields, hl.instances]
  rw [hl.heap, lookup_fields_edit hl.founded, hnone, List.lookup_nil, Option.or_none]

theorem class_fits {i : Id} {c : Class} (hi : m.heap.classes[i]? = some c) : c.Fits m.heap i := by
  rw [hl.heap] at hi ⊢
  refine class_fits_edit hl.founded (fun hnone => ?_) hi
  simp [hl.classes] at hnone

/-! ### Methods -/

theorem findMethod?_iff (c : Id) (name : String) (d f : Id) :
    m.heap.findMethod? c name = some (d, f) ↔ es.Finds c name d f := by
  have hlt : ∀ i j, m.heap.superclass? i = some j → j < i := by
    intro i j hj
    obtain ⟨c, hc, hs⟩ := Option.bind_eq_some_iff.1 hj
    exact (hl.class_fits hc).superclass j hs
  rw [findMethod?_eq_some_iff hlt]
  simp only [hl.lookup_methods, hl.superclass?_eq]
  rfl

theorem findMethod?_eq_none {c : Id} {name : String} (hn : ∀ d f, ¬ es.Finds c name d f) :
    m.heap.findMethod? c name = none := by
  refine Option.eq_none_iff_forall_ne_some.2 fun found hf => ?_
  exact hn found.1 found.2 ((hl.findMethod?_iff c name found.1 found.2).1 hf)

/-- A method that is found is a function. -/
theorem exists_closure {c d f : Id} {name : String} (hf : es.Finds c name d f) :
    ∃ closure, m.heap.functions[f]? = some closure := by
  have hmethod := (hl.lookup_methods d name).trans hf.2
  unfold methods at hmethod
  cases hd : m.heap.classes[d]? with
  | none => simp [hd] at hmethod
  | some cls =>
    rw [hd] at hmethod
    exact ⟨_, Array.getElem?_eq_getElem ((hl.class_fits hd).methods name f hmethod)⟩

theorem classArity_eq (c : Id) :
    (∀ d f, es.Finds c initName d f → m.heap.classArity c = m.heap.functionArity f) ∧
      ((∀ d f, ¬ es.Finds c initName d f) → m.heap.classArity c = 0) := by
  unfold classArity initializer?
  refine ⟨fun d f hf => ?_, fun hn => ?_⟩
  · rw [(hl.findMethod?_iff c initName d f).2 hf]
    rfl
  · rw [hl.findMethod?_eq_none hn]
    rfl

/-! ### Properties -/

/-- **A field comes first.** -/
theorem property?_of_field {o : Id} {name : String} {v : Value} (hv : es.lastSet? o name = some v) :
    m.heap.property? o name = some (.field v) := by
  rw [property?, hl.lookup_fields, hv]

/-- Without a field, the class is asked for a method. -/
theorem property?_of_unset {o c : Id} {name : String} (hv : es.lastSet? o name = none)
    (hc : es.instances[o]? = some c) :
    m.heap.property? o name = (m.heap.findMethod? c name).map fun found => .method found.2 := by
  rw [property?, hl.lookup_fields, hv, hl.classOf?_eq, hc]
  rfl

theorem property?_of_method {o c d f : Id} {name : String} (hv : es.lastSet? o name = none)
    (hc : es.instances[o]? = some c) (hf : es.Finds c name d f) :
    m.heap.property? o name = some (.method f) := by
  rw [hl.property?_of_unset hv hc, (hl.findMethod?_iff c name d f).2 hf, Option.map_some]

theorem property?_eq_none_iff {o c : Id} {name : String} (hc : es.instances[o]? = some c) :
    m.heap.property? o name = none ↔ es.lastSet? o name = none ∧ ∀ d f, ¬ es.Finds c name d f := by
  constructor
  · intro hp
    have hv : es.lastSet? o name = none := by
      refine Option.eq_none_iff_forall_ne_some.2 fun v hv => ?_
      rw [hl.property?_of_field hv] at hp
      cases hp
    refine ⟨hv, fun d f hf => ?_⟩
    rw [hl.property?_of_method hv hc hf] at hp
    cases hp
  · rintro ⟨hv, hn⟩
    rw [hl.property?_of_unset hv hc, hl.findMethod?_eq_none hn, Option.map_none]

/-- **Reading faults where nothing has the name**, and only there. -/
theorem getProperty_eq_error_iff {o c : Id} (t : Token) (hc : es.instances[o]? = some c) :
    Eval.getProperty (.object o) t m =
        .error (.fault ⟨t, .undefinedProperty t.lexeme, []⟩) m ↔
      es.lastSet? o t.lexeme = none ∧ ∀ d f, ¬ es.Finds c t.lexeme d f := by
  rw [← hl.property?_eq_none_iff hc, Eval.getProperty_object]
  cases m.heap.property? o t.lexeme with
  | none => simp only
  | some p => cases p <;> simp only [reduceCtorEq]

theorem propertyLaws : m.PropertyLaws es where
  places := by
    rw [← hl.toList_classes, ← hl.map_cls_instances, List.length_map]
    exact ⟨rfl, rfl⟩
  field o t v hv := by rw [Eval.getProperty_object, hl.property?_of_field hv]
  method o c t d f hc hv hf := by
    obtain ⟨closure, hclosure⟩ := hl.exists_closure hf
    refine ⟨_, _, ?_, bindsAnew_bindMethod hclosure o⟩
    rw [Eval.getProperty_object, hl.property?_of_method hv hc hf]
  undefined o c t hc := ⟨rfl, hl.getProperty_eq_error_iff t hc⟩
  finds := hl.findMethod?_iff
  arity := hl.classArity_eq
  apart o name v o' t hne := by
    rw [Eval.getProperty_withField hne]
    exact ⟨fun w m' hr => by rw [hr], fun i m' hr => by rw [hr]⟩
  unseen o name v c other := by
    have hclasses : (m.withField o name v).heap.classes = m.heap.classes := rfl
    exact ⟨findMethod?_congr hclasses c other, classArity_setField m.heap o name v c⟩

end History.LeadsTo

/-- **Properties obey the laws of fields and methods.** Classes and instances are made and fields
are set in any order, a class with an older superclass or with none, and whatever else is made in
between. Then what is read from an instance under a name is the value that was set last under it on
this instance; or else a new function, which is the method of that name in the nearest class upwards
that has one, bound to this instance; or else, and in no other case, the fault that there is no such
property. Setting a field of one instance is not seen from another one, nor by any class. -/
theorem Machine.properties_obey_laws (frames : Array Frame) (functions : Array Closure)
    (es : History) (hes : es.FoundedIn { frames, functions }) (m : Machine)
    (hm : m.heap = Heap.edit { frames, functions } es) : m.PropertyLaws es :=
  History.LeadsTo.propertyLaws ⟨hes, rfl, rfl, hm⟩

/-- Three classes in line, the lowest without methods of its own, and two instances of it. Fields of
one are named like a method and like the initializer; the other goes on with the methods. -/
theorem Machine.properties_obey_laws_of_hidden_methods :
    let t (name : String) : Token := ⟨.identifier, name, 1, 0⟩
    let functions : Array Closure := #[⟨⟨t "greet", [], []⟩, 0, false⟩,
      ⟨⟨t "init", [t "x"], []⟩, 0, true⟩, ⟨⟨t "greet", [], []⟩, 0, false⟩]
    let start : Heap := { functions }
    let es : History := [.cls ⟨"Base", none, [("greet", 0), ("init", 1)]⟩,
      .cls ⟨"Mid", some 0, [("greet", 2)]⟩, .cls ⟨"Leaf", some 1, []⟩, .object 2, .object 2,
      .field 0 "greet" (.bool true), .field 0 "init" .nil, .field 0 "greet" (.bool false)]
    let m : Machine := { heap := start.edit es, frame := globals, clock := [] }
    es.FoundedIn start ∧
    Eval.getProperty (.object 0) (t "greet") m = .ok (.bool false) m ∧
    (∃ g h', Eval.getProperty (.object 1) (t "greet") m = .ok (.function g) { m with heap := h' } ∧
      m.heap.BindsAnew 2 1 g h') ∧
    Eval.getProperty (.object 1) (t "nope") m =
      .error (.fault ⟨t "nope", .undefinedProperty "nope", []⟩) m ∧
    m.heap.findMethod? 2 "init" = some (0, 1) ∧ m.heap.classArity 2 = 1 := by
  intro t functions start es m
  have hes : es.FoundedIn start := by decide
  have laws := Machine.properties_obey_laws #[] functions es hes m rfl
  have hinit : es.Finds 2 "init" 0 1 :=
    ⟨⟨2, .outwards (by decide) rfl (.outwards (by decide) rfl (.here rfl))⟩, rfl⟩
  have hnope : ∀ d f, ¬ es.Finds 2 "nope" d f := by
    rintro d f ⟨-, hf⟩
    obtain ⟨c, hc, hl⟩ := Option.bind_eq_some_iff.1 hf
    have hall : ∀ c ∈ es.classes, c.methods.lookup "nope" = none := by decide
    rw [hall c (List.mem_of_getElem? hc)] at hl
    cases hl
  refine ⟨hes, ?_, ?_, ?_, ?_, ?_⟩
  · exact laws.field 0 (t "greet") (.bool false) rfl
  · exact laws.method 1 2 (t "greet") 1 2 rfl rfl ⟨⟨1, .outwards (by decide) rfl (.here rfl)⟩, rfl⟩
  · exact (laws.undefined 1 2 (t "nope") rfl).2.2 ⟨rfl, hnope⟩
  · exact (laws.finds 2 "init" 0 1).2 hinit
  · exact (laws.arity 2).1 0 1 hinit

/-! ## Sessions -/

/-- Legal edits make a history. -/
theorem Heap.exists_history {h h' : Heap} (hh : Edited Edit.Legal h h') :
    ∃ es : History, es.FoundedIn h ∧ h' = h.edit es := by
  induction hh using Relation.ReflTransGen.head_induction_on with
  | refl => exact ⟨[], trivial, rfl⟩
  | head hs _ ih =>
    obtain ⟨e, he, rfl⟩ := hs
    obtain ⟨es, hes, rfl⟩ := ih
    refine ⟨e :: es, ⟨?_, hes⟩, rfl⟩
    cases e with
    | cls c => exact he
    | object c => exact he
    | field o name v => exact he.1
    | frame _ | function _ | bind _ _ _ => trivial

namespace Session

/-- A history leads to the machine from the one in which the session began, and the properties of
instances are what it says. -/
def Recorded (s : Setting) (clock : Clock) (m : Machine) : Prop :=
  ∃ es : History, es.LeadsTo (Machine.initial s.natives clock).heap m ∧ m.PropertyLaws es

variable {s : Setting} {clock : Clock} {m : Machine}

theorem recorded_of_edited
    (hh : Edited Edit.Legal (Machine.initial s.natives clock).heap m.heap) :
    Recorded s clock m := by
  obtain ⟨es, hes, hm⟩ := exists_history hh
  have hl : es.LeadsTo (Machine.initial s.natives clock).heap m := ⟨hes, rfl, rfl, hm⟩
  exact ⟨es, hl, hl.propertyLaws⟩

variable (hn : ∀ native ∈ s.natives, native.Honest) {runs : List (Nat × String)} {n : Nat}
  {task : Task}
include hn

/-- A task of a session begins in a heap that comes from the first one by legal edits. -/
theorem Moment.edited (hm : Moment s clock runs n task m) :
    Edited Edit.Legal (Machine.initial s.natives clock).heap m.heap := by
  induction hm with
  | @statement earlier later fuel source before stmt rest m hr ha hs hx =>
    have hfirst := keeps_foldl hn earlier (holds_initial s.natives clock) rfl
    have h₀ := (holds_after hn clock earlier).1
    have hb : (begun s source (after s clock earlier)).Holds [] := ⟨h₀.heap, h₀.frame, h₀.values⟩
    have hbefore := (keeps_executeEach hn fuel before hb).ok hx
    exact Relation.ReflTransGen.trans hfirst.edited hbefore.edited
  | @call n task m task' m' hm hc ih =>
    obtain ⟨hand, m₁, door, hp, -, rfl⟩ := hc.begins
    have hk := (hp.keeps hn (Task.keeps hn n) (hm.holds hn)).1
    -- going through a door changes the frame or the calls, but not the heap
    cases door <;> exact Relation.ReflTransGen.trans ih hk.edited

/-- **Properties obey their laws in a session**, wherever a task begins or ends. -/
theorem Moment.propertyLaws (hm : Moment s clock runs n task m) :
    Recorded s clock m ∧ Ends (task.run s n) m (fun _ m' => Recorded s clock m')
      (fun _ m' => Recorded s clock m') := by
  have hh := hm.edited hn
  have later : ∀ {m'}, m.Keeps m' → Recorded s clock m' := fun hk =>
    recorded_of_edited (Relation.ReflTransGen.trans hh hk.edited)
  exact ⟨recorded_of_edited hh,
    (Task.keeps hn n task m (hm.holds hn)).mono (fun _ _ _ h => later h.1) fun _ _ h => later h⟩

end Session

end Lox

import Mathlib.Data.Fintype.Sort
import Mathlib.Order.Extension.Linear
import Lox.Proofs.Roster

/-!
# Variables by name and by distance

The frame that decides about a name, seen from a frame, is the nearest one outwards that binds it
(`Heap.Nearest`). Reading and assigning by name are about that frame, reading and assigning by
distance are about the frame a number of links away, and the two agree where the distance leads to the
nearest frame (`Heap.NameLaws`). Since no operation changes a link, what is read after any number of
operations is what was written last to the nearest frame (`Heap.get?_performed`).

Frames lie in a heap in the order in which they were made (`Heap.Layered`). Every store of frames
whose links do not come back to where they began has such a heap (`Heap.exists_layered`).

Main statement: `Heap.names_obey_laws`.
-/

namespace Lox.Heap

/-! ## Nearest frames -/

/-- `g` is the first place with `P` on the way from `f`, and stands `k` steps away. -/
inductive Nearest (next : Id → Option Id) (P : Id → Prop) : Id → Nat → Id → Prop
  | here {f} (hf : P f) : Nearest next P f 0 f
  | outwards {f p k g} (hf : ¬ P f) (hp : next f = some p) (hn : Nearest next P p k g) :
      Nearest next P f (k + 1) g

section
variable {next : Id → Option Id} {P : Id → Prop} {f g : Id} {k : Nat}

theorem Nearest.prop (h : Nearest next P f k g) : P g := by
  induction h with
  | here hf => exact hf
  | outwards _ _ _ ih => exact ih

/-- The nearest place is the first one on the trail. -/
theorem Nearest.find? {p : Id → Bool} (h : Nearest next (fun j => p j = true) f k g) {l : List Id}
    (ht : Trail next f l) : l.find? p = some g := by
  induction h generalizing l with
  | here hf => cases ht <;> exact List.find?_cons_of_pos hf
  | outwards hf hp _ ih =>
    cases ht with
    | stop hn => cases hn.symm.trans hp
    | step hn ht =>
      cases hn.symm.trans hp
      rw [List.find?_cons_of_neg hf]
      exact ih ht

/-- The first place on the trail is the nearest one. -/
theorem Nearest.of_find? {p : Id → Bool} {l : List Id} (ht : Trail next f l)
    (h : l.find? p = some g) : ∃ k, Nearest next (fun j => p j = true) f k g := by
  induction ht with
  | @stop i hn =>
    by_cases hi : p i = true
    · rw [List.find?_cons_of_pos hi, Option.some.injEq] at h
      exact ⟨0, h ▸ .here hi⟩
    · rw [List.find?_cons_of_neg hi] at h
      cases h
  | @step i j l hn _ ih =>
    by_cases hi : p i = true
    · rw [List.find?_cons_of_pos hi, Option.some.injEq] at h
      exact ⟨0, h ▸ .here hi⟩
    · rw [List.find?_cons_of_neg hi] at h
      obtain ⟨k, hk⟩ := ih h
      exact ⟨k + 1, .outwards hi hn hk⟩

end

/-! ## Stores of frames -/

/-- Every link leads to a frame that was made earlier. -/
def Layered (h : Heap) : Prop := ∀ f p, h.parent? f = some p → p < f

/-- Some frame from `f` outwards binds the name. -/
def InReach (h : Heap) (f : Id) (name : String) : Prop :=
  ∃ k g, h.ancestor? f k = some g ∧ (h.vars g).binds name = true

/-- The nearest frame from `f` outwards that binds the name is `g`, over `k` links. -/
def NearestBinding (h : Heap) (name : String) : Id → Nat → Id → Prop :=
  Nearest h.parent? fun g => (h.vars g).binds name = true

/-- `h'` is `h` but for one binding, of a name in the frame `g`. -/
structure Rebound (h : Heap) (g : Id) (name : String) (v : Value) (h' : Heap) : Prop where
  here : (h'.vars g).lookup name = some v
  others : ∀ f other, f ≠ g ∨ other ≠ name → (h'.vars f).lookup other = (h.vars f).lookup other
  links : h'.parent? = h.parent?
  size : h'.frames.size = h.frames.size
  objects : h'.functions = h.functions ∧ h'.classes = h.classes ∧ h'.instances = h.instances

section
variable {h : Heap} {f g : Id} {name : String} {k : Nat}

theorem NearestBinding.ancestor? (hn : h.NearestBinding name f k g) : h.ancestor? f k = some g := by
  induction hn with
  | here _ => rfl
  | outwards _ hp _ ih => rw [ancestor?_succ hp, ih]

/-- What is in reach is bound somewhere nearest. -/
theorem inReach_iff : h.InReach f name ↔ ∃ k g, h.NearestBinding name f k g := by
  constructor
  · rintro ⟨k, g, hg, hb⟩
    induction k generalizing f with
    | zero =>
      cases hg
      exact ⟨0, g, .here hb⟩
    | succ k ih =>
      by_cases hf : (h.vars f).binds name = true
      · exact ⟨0, f, .here hf⟩
      · obtain ⟨p, hp, hg⟩ := Option.bind_eq_some_iff.1 hg
        obtain ⟨k', g', hn⟩ := ih hg
        exact ⟨k' + 1, g', .outwards hf hp hn⟩
  · rintro ⟨k, g, hn⟩
    exact ⟨k, g, hn.ancestor?, hn.prop⟩

theorem trail_chain_of_layered (hl : h.Layered) (f : Id) : Trail h.parent? f (h.chain f) :=
  Trail.of_within hl (fun _ _ => rfl) (Nat.lt_succ_self f)

/-- **A search outwards finds the nearest frame.** -/
theorem holder?_eq_some_iff (hl : h.Layered) :
    h.holder? f name = some g ↔ ∃ k, h.NearestBinding name f k g :=
  ⟨Nearest.of_find? (trail_chain_of_layered hl f),
    fun ⟨_, hn⟩ => hn.find? (trail_chain_of_layered hl f)⟩

theorem holder?_eq_none_iff (hl : h.Layered) : h.holder? f name = none ↔ ¬ h.InReach f name := by
  rw [inReach_iff, Option.eq_none_iff_forall_ne_some]
  constructor
  · rintro hnone ⟨k, g, hn⟩
    exact hnone g ((holder?_eq_some_iff hl).2 ⟨k, hn⟩)
  · rintro hnone g hg
    obtain ⟨k, hn⟩ := (holder?_eq_some_iff hl).1 hg
    exact hnone ⟨k, g, hn⟩

/-- Binding a name in a frame changes that binding and nothing else. -/
theorem rebound_define (hg : g < h.frames.size) (name : String) (v : Value) :
    h.Rebound g name v (h.define g name v) where
  here := by rw [vars_define, if_pos ⟨rfl, hg⟩, Table.lookup_insert_self]
  others f other hne := by
    rw [vars_define]
    split
    · rename_i hf
      exact Table.lookup_insert_of_ne _ _ (hne.resolve_left fun hn => hn hf.1.symm)
    · rfl
  links := funext fun f => parent?_define h g name v f
  size := Array.size_modify
  objects := ⟨rfl, rfl, rfl⟩

theorem lt_size_of_binds (hb : (h.vars g).binds name = true) : g < h.frames.size := by
  obtain ⟨v, hv⟩ := Table.binds_iff.1 hb
  obtain ⟨frame, hf, -⟩ := lookup_vars_eq_some hv
  exact (Array.getElem?_eq_some_iff.1 hf).1

end

/-! ## The laws -/

/-- How names are read and bound in a store of frames. -/
structure NameLaws (h : Heap) : Prop where
  /-- A name can be read, and can be assigned to, where some frame outwards binds it. -/
  succeeds : ∀ f name v, ((h.get? f name).isSome = true ↔ h.InReach f name) ∧
    ((h.assign? f name v).isSome = true ↔ h.InReach f name)
  /-- Reading is about the nearest frame, by name and by the distance to it. -/
  reads : ∀ f name k g, h.NearestBinding name f k g → ∃ v, (h.vars g).lookup name = some v ∧
    h.get? f name = some v ∧ h.getAt f k name = .ok v
  /-- So is assigning. It changes one binding, which is the one that is read. -/
  assigns : ∀ f name k g v, h.NearestBinding name f k g → ∃ h', h.assign? f name v = some h' ∧
    h.assignAt f k name v = .ok h' ∧ h.Rebound g name v h' ∧ h'.get? f name = some v
  /-- Defining a name binds it in the frame itself, whatever the frames around it bind. -/
  defines : ∀ f name v, f < h.frames.size → h.Rebound f name v (h.define f name v) ∧
    (h.define f name v).get? f name = some v
  /-- A machine reads and assigns just so. Where no frame binds the name, both fail with a fault at
  the token, and the machine is as it was. -/
  running : ∀ (m : Machine) f (t : Token) v, m.heap = h →
    let fault : Interrupt := .fault ⟨t, .undefinedVariable t.lexeme, []⟩
    (Exec.lookUp f t m = match h.get? f t.lexeme with
      | some w => .ok w m
      | none => .error fault m) ∧
    Exec.assignFrom f t v m = match h.assign? f t.lexeme v with
      | some h' => .ok () { m with heap := h' }
      | none => .error fault m

section
variable {h : Heap} (hl : h.Layered)
include hl

theorem get?_of_nearest {f g : Id} {name : String} {k : Nat} (hn : h.NearestBinding name f k g) :
    h.get? f name = (h.vars g).lookup name := by
  rw [get?_eq, (holder?_eq_some_iff hl).2 ⟨k, hn⟩, Option.bind_some]

theorem isSome_holder?_iff {f : Id} {name : String} :
    (h.holder? f name).isSome = true ↔ h.InReach f name := by
  rw [Option.isSome_iff_exists, inReach_iff, exists_comm]
  exact exists_congr fun g => holder?_eq_some_iff hl

theorem isSome_get?_iff {f : Id} {name : String} :
    (h.get? f name).isSome = true ↔ h.InReach f name := by
  rw [← isSome_holder?_iff hl, get?_eq]
  cases hg : h.holder? f name with
  | none => rfl
  | some g =>
    obtain ⟨k, hn⟩ := (holder?_eq_some_iff hl).1 hg
    rw [Option.bind_some, Option.isSome_some]
    exact iff_of_true hn.prop rfl

theorem layered_of_rebound {g : Id} {name : String} {v : Value} {h' : Heap}
    (hr : h.Rebound g name v h') : h'.Layered := by
  unfold Layered
  rw [hr.links]
  exact hl

omit hl in
/-- Another value for a name does not change which frames bind it, if one of them was to be bound. -/
theorem Rebound.binds_iff {g : Id} {name : String} {v : Value} {h' : Heap}
    (hr : h.Rebound g name v h') (hb : (h.vars g).binds name = true) (f : Id) (other : String) :
    (h'.vars f).binds other = (h.vars f).binds other := by
  by_cases hf : f = g ∧ other = name
  · obtain ⟨rfl, rfl⟩ := hf
    rw [hb, Table.binds, hr.here]
    rfl
  · rw [Table.binds, Table.binds, hr.others f other (by tauto)]

/-- After the nearest binding has got another value, that value is read. -/
theorem get?_of_rebound {f g : Id} {name : String} {k : Nat} {v : Value} {h' : Heap}
    (hn : h.NearestBinding name f k g) (hr : h.Rebound g name v h') : h'.get? f name = some v := by
  have hn' : h'.NearestBinding name f k g := by
    unfold NearestBinding
    rw [hr.links]
    simp only [hr.binds_iff hn.prop]
    exact hn
  rw [get?_of_nearest (layered_of_rebound hl hr) hn', hr.here]

theorem nameLaws : h.NameLaws where
  succeeds f name v := by
    refine ⟨isSome_get?_iff hl, ?_⟩
    rw [assign?, Option.isSome_map, isSome_holder?_iff hl]
  reads f name k g hn := by
    obtain ⟨v, hv⟩ := Table.binds_iff.1 hn.prop
    refine ⟨v, hv, by rw [get?_of_nearest hl hn, hv], ?_⟩
    rw [getAt, Int.toNat_natCast, hn.ancestor?]
    simp only [hv]
  assigns f name k g v hn := by
    have hr := rebound_define (lt_size_of_binds hn.prop) name v
    refine ⟨h.define g name v, ?_, ?_, hr, get?_of_rebound hl hn hr⟩
    · rw [assign?, (holder?_eq_some_iff hl).2 ⟨k, hn⟩, Option.map_some]
    · rw [assignAt, slotAt, Int.toNat_natCast, hn.ancestor?]
      simp only [hn.prop, if_true]
      rfl
  defines f name v hf := by
    have hr := rebound_define hf name v
    refine ⟨hr, ?_⟩
    have hn : (h.define f name v).NearestBinding name f 0 f :=
      .here (Table.binds_iff.2 ⟨v, hr.here⟩)
    rw [get?_of_nearest (layered_of_rebound hl hr) hn, hr.here]
  running m f t v hm := by
    subst hm
    constructor
    · simp only [Exec.lookUp, Exec.heap_bind]
      cases m.heap.get? f t.lexeme <;> rfl
    · simp only [Exec.assignFrom, Exec.heap_bind, assign?]
      cases m.heap.holder? f t.lexeme <;> rfl

end

/-! ## Sequences of operations -/

/-- A binding that is asked for, in a frame or from a frame outwards. -/
inductive Step where
  | define (f : Id) (name : String) (v : Value)
  | assign (f : Id) (name : String) (v : Value)
  | assignAt (f : Id) (hops : Int) (name : String) (v : Value)

namespace Step

def frame : Step → Id
  | define f _ _ | assign f _ _ | assignAt f _ _ _ => f

/-- The heap after a step. A step that fails changes nothing. -/
def apply (h : Heap) : Step → Heap
  | define f name v => h.define f name v
  | assign f name v => (h.assign? f name v).getD h
  | assignAt f hops name v => (h.assignAt f hops name v).toOption.getD h

end Step

/-- The heap after some steps. -/
def perform (h : Heap) (steps : List Step) : Heap := steps.foldl Step.apply h

/-- A value that was written to a binding. -/
structure Write where
  frame : Id
  name : String
  value : Value

/-- What a step writes, if it does not fail. -/
inductive Step.Writes (h : Heap) : Step → Option Write → Prop
  | define {f name v} : Writes h (.define f name v) (some ⟨f, name, v⟩)
  | assign {f name v k g} (hn : h.NearestBinding name f k g) :
      Writes h (.assign f name v) (some ⟨g, name, v⟩)
  | assignFails {f name v} (hn : ¬ h.InReach f name) : Writes h (.assign f name v) none
  | assignAt {f hops name v g} (hg : h.ancestor? f hops.toNat = some g)
      (hb : (h.vars g).binds name = true) : Writes h (.assignAt f hops name v) (some ⟨g, name, v⟩)
  | assignAtFails {f hops name v}
      (hn : ¬ ∃ g, h.ancestor? f hops.toNat = some g ∧ (h.vars g).binds name = true) :
      Writes h (.assignAt f hops name v) none

/-- What steps write, in their order. -/
inductive Writes : Heap → List Step → List Write → Prop
  | done {h} : Writes h [] []
  | step {h step w steps ws} (hw : step.Writes h w) (hs : Writes (step.apply h) steps ws) :
      Writes h (step :: steps) (w.toList ++ ws)

/-- The value that was written last to a name in a frame, or else the one that was there before. -/
def lastWritten (h : Heap) (ws : List Write) (g : Id) (name : String) : Option Value :=
  match ws.reverse.find? fun w => w.frame = g ∧ w.name = name with
  | some w => some w.value
  | none => (h.vars g).lookup name

/-- A first write counts where no later one is to the same binding. -/
theorem lastWritten_cons {h h' : Heap} {w : Write} (hr : h.Rebound w.frame w.name w.value h')
    (ws : List Write) (g : Id) (name : String) :
    h.lastWritten (w :: ws) g name = h'.lastWritten ws g name := by
  unfold lastWritten
  rw [List.reverse_cons, List.find?_append]
  cases ws.reverse.find? fun w => decide (w.frame = g ∧ w.name = name) with
  | some w' => rfl
  | none =>
    by_cases hw : w.frame = g ∧ w.name = name
    · obtain ⟨rfl, rfl⟩ := hw
      simp [hr.here]
    · have hne : g ≠ w.frame ∨ name ≠ w.name := by tauto
      simp [hw, hr.others g name hne]

section
variable {h : Heap} {step : Step} {steps : List Step} {w : Option Write} {ws : List Write}

theorem slotAt_eq_ok_iff {f g : Id} {hops : Int} {name : String} :
    h.slotAt f hops name = .ok g ↔
      h.ancestor? f hops.toNat = some g ∧ (h.vars g).binds name = true := by
  unfold slotAt
  cases h.ancestor? f hops.toNat with
  | none => simp
  | some p =>
    by_cases hb : (h.vars p).binds name = true
    · simp only [hb, if_true, Except.ok.injEq, Option.some.injEq]
      exact ⟨fun he => ⟨he, he ▸ hb⟩, And.left⟩
    · simp only [hb, Bool.false_eq_true, if_false, reduceCtorEq, Option.some.injEq, false_iff]
      rintro ⟨rfl, hg⟩
      exact hb hg

theorem Step.exists_writes (h : Heap) (step : Step) : ∃ w, step.Writes h w := by
  cases step with
  | define f name v => exact ⟨_, .define⟩
  | assign f name v =>
    by_cases hr : h.InReach f name
    · obtain ⟨k, g, hn⟩ := inReach_iff.1 hr
      exact ⟨_, .assign hn⟩
    · exact ⟨_, .assignFails hr⟩
  | assignAt f hops name v =>
    by_cases hr : ∃ g, h.ancestor? f hops.toNat = some g ∧ (h.vars g).binds name = true
    · obtain ⟨g, hg, hb⟩ := hr
      exact ⟨_, .assignAt hg hb⟩
    · exact ⟨_, .assignAtFails hr⟩

/-- **A step changes the binding that it writes**, and nothing else. -/
theorem Step.Writes.apply (hl : h.Layered) (hw : step.Writes h w)
    (hs : step.frame < h.frames.size) :
    (∃ w', w = some w' ∧ h.Rebound w'.frame w'.name w'.value (step.apply h)) ∨
      (w = none ∧ step.apply h = h) := by
  cases hw with
  | @define f name v => exact .inl ⟨_, rfl, rebound_define hs name v⟩
  | @assign f name v k g hn =>
    refine .inl ⟨_, rfl, ?_⟩
    rw [Step.apply, assign?, (holder?_eq_some_iff hl).2 ⟨k, hn⟩]
    exact rebound_define (lt_size_of_binds hn.prop) name v
  | @assignFails f name v hn =>
    refine .inr ⟨rfl, ?_⟩
    rw [Step.apply, assign?, (holder?_eq_none_iff hl).2 hn]
    rfl
  | @assignAt f hops name v g hg hb =>
    refine .inl ⟨_, rfl, ?_⟩
    rw [Step.apply, Heap.assignAt, slotAt_eq_ok_iff.2 ⟨hg, hb⟩]
    exact rebound_define (lt_size_of_binds hb) name v
  | @assignAtFails f hops name v hn =>
    refine .inr ⟨rfl, ?_⟩
    rw [Step.apply, Heap.assignAt]
    cases hg : h.slotAt f hops name with
    | ok g => exact absurd ⟨g, slotAt_eq_ok_iff.1 hg⟩ hn
    | error b => rfl

/-- Any steps write something, if only nothing at all. -/
theorem exists_writes (h : Heap) (steps : List Step) : ∃ ws, Writes h steps ws := by
  induction steps generalizing h with
  | nil => exact ⟨[], .done⟩
  | cons step steps ih =>
    obtain ⟨w, hw⟩ := step.exists_writes h
    obtain ⟨ws, hs⟩ := ih (step.apply h)
    exact ⟨_, .step hw hs⟩

/-- **Steps leave in every frame what they wrote there last**, and change no link. -/
theorem Writes.perform (hw : Writes h steps ws) (hl : h.Layered)
    (hs : ∀ step ∈ steps, step.frame < h.frames.size) :
    (h.perform steps).parent? = h.parent? ∧
      ∀ g name, ((h.perform steps).vars g).lookup name = h.lastWritten ws g name := by
  induction hw with
  | done => exact ⟨rfl, fun _ _ => rfl⟩
  | @step h step w steps ws hw _ ih =>
    obtain ⟨hfirst, hrest⟩ := List.forall_mem_cons.1 hs
    rcases hw.apply hl hfirst with ⟨w', rfl, hr⟩ | ⟨rfl, he⟩
    · obtain ⟨hlinks, hvars⟩ := ih (layered_of_rebound hl hr) (by rwa [hr.size])
      refine ⟨hlinks.trans hr.links, fun g name => (hvars g name).trans ?_⟩
      exact (lastWritten_cons hr ws g name).symm
    · rw [he] at ih
      have hrun : h.perform (step :: steps) = h.perform steps := congrArg (·.perform steps) he
      rw [hrun]
      exact ih hl hrest

/-- What is read after some steps is what was written last to the nearest frame. -/
theorem get?_performed (hw : Writes h steps ws) (hl : h.Layered)
    (hs : ∀ step ∈ steps, step.frame < h.frames.size) (f : Id) (name : String) (v : Value) :
    (h.perform steps).get? f name = some v ↔
      ∃ k g, Nearest h.parent? (fun g => (h.lastWritten ws g name).isSome = true) f k g ∧
        h.lastWritten ws g name = some v := by
  obtain ⟨hlinks, hvars⟩ := hw.perform hl hs
  have hl' : (h.perform steps).Layered := by
    unfold Layered
    rwa [hlinks]
  have hnearest : (h.perform steps).NearestBinding name =
      Nearest h.parent? fun g => (h.lastWritten ws g name).isSome = true := by
    simp only [NearestBinding, hlinks, Table.binds, hvars]
  rw [← hnearest]
  constructor
  · intro hv
    have hreach := (isSome_get?_iff hl').1 (Option.isSome_of_eq_some hv)
    obtain ⟨k, g, hn⟩ := inReach_iff.1 hreach
    refine ⟨k, g, hn, ?_⟩
    rw [← hvars, ← get?_of_nearest hl' hn, hv]
  · rintro ⟨k, g, hn, hv⟩
    rw [get?_of_nearest hl' hn, hvars, hv]

end

/-! ## Stores laid out in a heap -/

section
variable {ι : Type} [Finite ι]

/-- Where links do not come back, the places have numbers that get smaller along the links. -/
theorem exists_numbering {link : ι → Option ι}
    (hlink : ∀ i, ¬ Relation.TransGen (fun i j => link i = some j) i i) :
    ∃ (n : Nat) (number : ι ≃ Fin n), ∀ i j, link i = some j → number j < number i := by
  let outwards : ι → ι → Prop := fun j i => Relation.ReflTransGen (fun i j => link i = some j) i j
  have hpartial : IsPartialOrder ι outwards :=
    { refl := fun _ => .refl
      trans := fun _ _ _ hij hjk => hjk.trans hij
      antisymm := fun i j hij hji => by
        rcases Relation.reflTransGen_iff_eq_or_transGen.1 hij with he | ht
        · exact he
        · exact absurd (ht.trans_left hji) (hlink j) }
  obtain ⟨le, hle, hsub⟩ := extend_partialOrder outwards
  classical
  let order : LinearOrder ι :=
    { le := le
      le_refl := hle.refl
      le_trans := hle.trans
      le_antisymm := hle.antisymm
      le_total := hle.total
      toDecidableLE := Classical.decRel le }
  have hfin := Fintype.ofFinite ι
  let number := (Fintype.orderIsoFinOfCardEq ι rfl).symm
  refine ⟨Fintype.card ι, number.toEquiv, fun i j hij => number.lt_iff_lt.2 (lt_of_le_of_ne ?_ ?_)⟩
  · exact hsub j i (.single hij)
  · rintro rfl
    exact hlink j (.single hij)

/-- **Every store of frames whose links do not come back has a heap.** -/
theorem exists_layered (vars : ι → Table Value) {link : ι → Option ι}
    (hlink : ∀ i, ¬ Relation.TransGen (fun i j => link i = some j) i i) :
    ∃ (h : Heap) (place : ι → Id), h.Layered ∧ Function.Injective place ∧
      (∀ f, f < h.frames.size ↔ ∃ i, place i = f) ∧
      ∀ i, h.vars (place i) = vars i ∧ h.parent? (place i) = (link i).map place := by
  obtain ⟨n, number, hnumber⟩ := exists_numbering hlink
  let place : ι → Id := fun i => number i
  let frame : Fin n → Frame := fun k => ⟨vars (number.symm k), (link (number.symm k)).map place⟩
  let h : Heap := { frames := Array.ofFn frame }
  have hframe : ∀ i, h.frames[place i]? = some ⟨vars i, (link i).map place⟩ := by
    intro i
    have hi : place i < n := (number i).isLt
    rw [Array.getElem?_ofFn, dif_pos hi]
    simp only [frame, place, Fin.eta, Equiv.symm_apply_apply]
  have hplace : ∀ f, f < h.frames.size ↔ ∃ i, place i = f := by
    intro f
    rw [Array.size_ofFn]
    exact ⟨fun hf => ⟨number.symm ⟨f, hf⟩, by simp [place]⟩, fun ⟨i, hi⟩ => hi ▸ (number i).isLt⟩
  refine ⟨h, place, fun f p hp => ?_, fun i j hij => number.injective (Fin.ext hij), hplace,
    fun i => ⟨by rw [vars_of_getElem? (hframe i)], by rw [parent?_of_getElem? (hframe i)]⟩⟩
  -- only frames of the heap have a link
  obtain ⟨frame', hf, -⟩ := parent?_eq_some hp
  obtain ⟨i, rfl⟩ := (hplace f).1 (Array.getElem?_eq_some_iff.1 hf).1
  rw [parent?_of_getElem? (hframe i)] at hp
  obtain ⟨j, hj, rfl⟩ := Option.map_eq_some_iff.1 hp
  exact hnumber i j hj

end

/-- **Names obey the laws of nested frames.** Every store of frames whose links do not come back has
a heap in which links lead to earlier frames. In such a heap a name can be read and assigned to from a
frame if some frame outwards binds it; both are then about the nearest one, and agree with reading and
assigning by the distance to it; a definition binds the name in the frame itself; each of them changes
one binding, and one that fails changes nothing (`NameLaws`). After any number of such operations on
the frames, what is read is the value that was written last to the nearest frame that binds the
name. -/
theorem names_obey_laws :
    (∀ (ι : Type) [Finite ι] (vars : ι → Table Value) (link : ι → Option ι),
      (∀ i, ¬ Relation.TransGen (fun i j => link i = some j) i i) →
      ∃ (h : Heap) (place : ι → Id), h.Layered ∧ Function.Injective place ∧
        (∀ f, f < h.frames.size ↔ ∃ i, place i = f) ∧
        ∀ i, h.vars (place i) = vars i ∧ h.parent? (place i) = (link i).map place) ∧
    ∀ h : Heap, h.Layered → h.NameLaws ∧
      ∀ steps : List Step, (∀ step ∈ steps, step.frame < h.frames.size) →
        (∃ ws, Writes h steps ws) ∧
        ∀ ws, Writes h steps ws → ∀ f name v, (h.perform steps).get? f name = some v ↔
          ∃ k g, Nearest h.parent? (fun g => (h.lastWritten ws g name).isSome = true) f k g ∧
            h.lastWritten ws g name = some v :=
  ⟨fun _ _ vars _ hlink => exists_layered vars hlink,
    fun h hl => ⟨nameLaws hl, fun steps hs => ⟨exists_writes h steps,
      fun _ hw f name v => get?_performed hw hl hs f name v⟩⟩⟩

/-- Two frames, 2 and 3, with the same frame around them, and steps from both; and three frames that
are not numbered along their links. -/
theorem names_obey_laws_of_shared_frame :
    let h : Heap :=
      { frames := #[⟨[("x", .nil)], none⟩, ⟨[("y", .nil)], some 0⟩, ⟨[], some 1⟩, ⟨[], some 1⟩] }
    let steps : List Step :=
      [.assign 2 "y" (.bool true), .define 3 "x" (.bool false), .assignAt 3 2 "x" (.bool true)]
    let link : Fin 3 → Option (Fin 3) := fun | 0 => some 1 | 1 => some 2 | 2 => none
    (h.Layered ∧ (∀ step ∈ steps, step.frame < h.frames.size) ∧
      ∀ i, ¬ Relation.TransGen (fun i j => link i = some j) i i) ∧
    (h.perform steps).get? 3 "y" = some (.bool true) ∧
    (h.perform steps).get? 3 "x" = some (.bool false) ∧
    (h.perform steps).get? 2 "x" = some (.bool true) ∧
    ∃ (h' : Heap) (place : Fin 3 → Id), h'.Layered ∧
      ∀ i, h'.vars (place i) = [] ∧ h'.parent? (place i) = (link i).map place := by
  intro h steps link
  have hl : h.Layered := by
    intro f p hp
    obtain ⟨frame, hf, -⟩ := parent?_eq_some hp
    have hall : ∀ f < 4, ∀ p ∈ h.parent? f, p < f := by decide
    exact hall f (Array.getElem?_eq_some_iff.1 hf).1 p hp
  have hs : ∀ step ∈ steps, step.frame < h.frames.size := by simp [steps, h, Step.frame]
  have hlink : ∀ i, ¬ Relation.TransGen (fun i j => link i = some j) i i := by
    intro i hi
    have hup : ∀ i j, Relation.TransGen (fun i j => link i = some j) i j → i < j := by
      have hone : ∀ i j, link i = some j → i < j := by decide
      intro i j hij
      induction hij with
      | single hij => exact hone _ _ hij
      | tail _ hjk ih => exact ih.trans (hone _ _ hjk)
    exact lt_irrefl i (hup i i hi)
  obtain ⟨-, hlaws⟩ := names_obey_laws.2 h hl
  obtain ⟨-, hreads⟩ := hlaws steps hs
  have hwrites : Writes h steps [⟨1, "y", .bool true⟩, ⟨3, "x", .bool false⟩, ⟨0, "x", .bool true⟩] :=
    .step (.assign (.outwards (by decide) rfl (.here rfl))) <| .step .define <|
      .step (.assignAt rfl rfl) .done
  have hread := hreads _ hwrites
  refine ⟨⟨hl, hs, hlink⟩, ?_, ?_, ?_, ?_⟩
  · exact (hread 3 "y" _).2 ⟨1, 1, .outwards (by decide) rfl (.here rfl), rfl⟩
  · exact (hread 3 "x" _).2 ⟨0, 3, .here rfl, rfl⟩
  · exact (hread 2 "x" _).2 ⟨2, 0, .outwards (by decide) rfl (.outwards (by decide) rfl (.here rfl)),
      rfl⟩
  · obtain ⟨h', place, hl', -, -, hplace⟩ := names_obey_laws.1 (Fin 3) (fun _ => []) link hlink
    exact ⟨h', place, hl', hplace⟩

end Lox.Heap

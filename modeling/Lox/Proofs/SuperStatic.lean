import Lox.Proofs.Safety

/-!
# `super` is static

Whenever a `super` expression is evaluated, the class in which the search for the method starts is
the superclass of the class that the class statement around the expression has made, and the
receiver is an instance of that class or of a descendant (`super_of_enclosing_class`). Neither
overriding nor anything that is stored or assigned later changes it.
-/

namespace Lox

namespace Heap

variable {h : Heap}

theorem mem_lineageWithin (hlt : ∀ {c p : Id}, h.superclass? c = some p → p < c) {d c : Id}
    (hd : h.Descends d c) : ∀ {n : Nat}, d < n → c ∈ h.lineageWithin n d := by
  induction hd with
  | refl c =>
    rintro (_ | n) hn
    · exact absurd hn (Nat.not_lt_zero _)
    · exact List.mem_cons_self
  | @step d p c hp _ ih =>
    rintro (_ | n) hn
    · exact absurd hn (Nat.not_lt_zero _)
    · unfold lineageWithin
      rw [hp]
      exact List.mem_cons_of_mem _ (ih (Nat.lt_of_lt_of_le (hlt hp) (Nat.le_of_lt_succ hn)))

/-- The ancestors of a class are the classes on its line. -/
theorem Descends.mem_lineage (hlt : ∀ {c p : Id}, h.superclass? c = some p → p < c) {d c : Id}
    (hd : h.Descends d c) : c ∈ h.lineage d :=
  mem_lineageWithin hlt hd (Nat.lt_succ_self d)

/-- The superclass of an ancestor is a strict ancestor. -/
theorem Descends.mem_tail_lineage (hlt : ∀ {c p : Id}, h.superclass? c = some p → p < c)
    {d c q : Id} (hd : h.Descends d c) (hq : h.superclass? c = some q) :
    q ∈ (h.lineage d).tail := by
  obtain ⟨p, hp, hpq⟩ : ∃ p, h.superclass? d = some p ∧ h.Descends p q := by
    cases hd with
    | refl => exact ⟨q, hq, .refl q⟩
    | step hp hpc => exact ⟨_, hp, hpc.trans (.step hq (.refl q))⟩
  have hlineage : h.lineage d = d :: h.lineageWithin d p := by simp [lineage, lineageWithin, hp]
  rw [hlineage]
  exact mem_lineageWithin hlt hpq (hlt hp)

end Heap

namespace Session

open Heap Exec Eval

/-- There is a class statement `K` around the `super` expression and an execution of it in the session,
from `m₀` to `m₁`, which made the class `C` at the place `c`. The expression finds `super` in the frame
that this execution made, and it is the superclass `q` that `C` records; `this`, found one frame
inside, is an instance whose class has `c` on its line. So `q`, where the search for the method
starts, is a strict ancestor of the receiver's class. -/
def SuperOfEnclosing (s : Setting) (clock : Clock) (runs : List (Nat × String)) (ref : Reference)
    (method : Token) (m : Machine) : Prop :=
  ∃ K n₀ m₀ m₁ C k c q o d,
    (.superRef ref method ∈ K.ownSupers ∧ Moment s clock runs n₀ (.execute K) m₀ ∧
      execute s n₀ K m₀ = .ok .completed m₁) ∧
    (c = m₀.heap.classes.size ∧ m₁.heap.classes[c]? = some C ∧ m.heap.classes[c]? = some C) ∧
    (ref.hops = some (k + 1) ∧ m.heap.ancestor? m.frame (k + 1) = some m₀.heap.frames.size ∧
      m.heap.getAt m.frame (k + 1 : Nat) "super" = .ok (.cls q) ∧ C.superclass = some q) ∧
    (m.heap.getAt m.frame k "this" = .ok (.object o) ∧ m.heap.classOf? o = some d ∧
      c ∈ m.heap.lineage d) ∧
    q ∈ (m.heap.lineage d).tail ∧ superParts s ref m = .ok (.cls q, .object o) m

/-- **`super` is static.** Whenever a session evaluates a `super` expression, the search starts at
the superclass of the class that the class statement around it has made, and the receiver belongs
to that class. -/
theorem super_of_enclosing_class (path : String) (natives : List Native)
    (hn : ∀ native ∈ natives, native.Honest) (clock : Clock) (runs : List (Nat × String)) {n : Nat}
    {ref : Reference} {method : Token} {m : Machine}
    (hm : Moment { path, natives } clock runs n (.evaluate (.superRef ref method)) m) :
    SuperOfEnclosing { path, natives } clock runs ref method m := by
  have w : Watched { path, natives } (ledger { path, natives } clock runs)
      (Moment { path, natives } clock runs) := watched rfl hn
  obtain ⟨hs, site, hf, hh, K, hK, hd, hown⟩ := hm.ready w
  obtain ⟨k, t, g, o, c, d, q, C, hfind, ht, hg, hthis, hsuper, ho, hdc, hC, hq, hmade⟩ :=
    hf.super hK hd
  obtain ⟨n₀, m₀, m₁, hmoment, hx, rfl, rfl, hC₁⟩ := hmade
  have hsup : m.heap.superclass? m₀.heap.classes.size = some q := by simp [superclass?, hC, hq]
  have hlt : ∀ {c p : Id}, m.heap.superclass? c = some p → p < c := fun hp => hs.supers hp
  have hhops : ref.hops = some (k + 1) := by rw [hh, Scopes.hops?_eq, hfind]; rfl
  have hget := getAt_of_ancestor? hg hsuper
  have hgot := getAt_of_ancestor? ht hthis
  exact ⟨K, n₀, m₀, m₁, C, k, _, q, o, d, ⟨hown, hmoment, hx⟩, ⟨rfl, hC₁, hC⟩,
    ⟨hhops, hg, hget, hq⟩, ⟨hgot, ho, hdc.mem_lineage hlt⟩, hdc.mem_tail_lineage hlt hsup,
    superParts_of_getAt rfl hhops hget hgot⟩

/-- A bound method of a descendant, called after the name of its class has been assigned to. -/
theorem super_in_stored_method :
    ∃ runs n ref method m, Moment { path := "", natives := [Native.clock] } [] runs n
        (.evaluate (.superRef ref method)) m ∧
      SuperOfEnclosing { path := "", natives := [Native.clock] } [] runs ref method m := by
  let runs := [(30, "class A \x7b m() \x7b\x7d \x7d" ++
    "class B < A \x7b m() \x7b return super.m; \x7d \x7d class C < B \x7b\x7d var f = C().m;"),
    (30, "B = nil; f();")]
  have hany : (moments { path := "", natives := [Native.clock] } [] runs).any (fun x =>
      match x.2.1 with
      | .evaluate (.superRef _ _) => true
      | _ => false) = true := by decide +kernel
  obtain ⟨⟨n, task, m⟩, hmem, htask⟩ := List.any_eq_true.1 hany
  split at htask
  · rename_i ref method heq
    change task = _ at heq
    subst heq
    have hm := moment_of_mem _ hmem
    exact ⟨runs, n, ref, method, m, hm, super_of_enclosing_class _ _ honest_clock _ _ hm⟩
  · cases htask

end Session

end Lox
